import Solids.Cache

/-!
# Caches that missed more

The count of misses is for information only. A cache in which more misses were counted
(`Cache.MoreMisses`) finds the same under every key, and stays the same but for that count when it
is used in the same way (`Cache.lookup_missed`, `Cache.store_missed`).
-/

namespace Solids.Cache

variable {α ω : Type}

/-- The cache with more misses counted. -/
def missed (c : Cache α ω) (k : Nat) : Cache α ω :=
  { c with stats := { c.stats with misses := c.stats.misses + k } }

section Missed

variable (c : Cache α ω) (k : Nat)

@[simp] theorem entries_missed : (c.missed k).entries = c.entries := rfl

@[simp] theorem recency_missed : (c.missed k).recency = c.recency := rfl

/-- What is under a key does not depend on the misses. -/
theorem mesh?_missed (key : CacheKey) : (c.missed k).mesh? key = c.mesh? key := rfl

/-- The misses do not matter to a touch. -/
theorem touch_missed (key : CacheKey) : (c.missed k).touch key = (c.touch key).missed k := by
  rw [touch, touch, entries_missed]
  cases c.entries.get? key <;> rfl

/-- The misses do not matter to a lookup. -/
theorem lookup_missed (key : CacheKey) :
    (c.missed k).lookup key = ((c.lookup key).1, (c.lookup key).2.missed k) := by
  rw [lookup, lookup, mesh?_missed]
  split
  · exact congrArg _
      (touch_missed { c with stats := { c.stats with hits := c.stats.hits + 1 } } k key)
  · refine congrArg _ ?_
    rw [missed, missed]
    simp only [Nat.add_right_comm]

/-- The misses do not matter to a drop. -/
theorem drop_missed (key : CacheKey) : (c.missed k).drop key = (c.drop key).missed k := by
  rw [drop, drop, entries_missed]
  cases c.entries.get? key <;> rfl

/-- The misses do not matter to a round of evictions. -/
theorem evictOldest_missed : (c.missed k).evictOldest = c.evictOldest.missed k := by
  rw [evictOldest, evictOldest, recency_missed]
  cases c.recency.uses with
  | nil => rfl
  | cons use _ => exact drop_missed { c with recency := c.recency.tail } k use.2

/-- The misses do not matter to evictions. -/
theorem evictFrom_missed (uses : List (Nat × CacheKey)) :
    evictFrom uses (c.missed k) = (evictFrom uses c).missed k := by
  induction uses generalizing c with
  | nil => rfl
  | cons use uses ih =>
    rw [evictFrom, evictFrom, evictOldest_missed, ih, ← apply_ite (missed · k)]
    rfl

/-- The misses do not matter to a store. -/
theorem store_missed (key : CacheKey) (m : Mesh α) :
    (c.missed k).store key m = (c.store key m).missed k :=
  evictFrom_missed (c.putMesh key m) k _

end Missed

/-- The second cache is the first with more misses counted. -/
def MoreMisses (c c' : Cache α ω) : Prop := ∃ k, c' = c.missed k

/-- A cache is itself with no misses more. -/
theorem MoreMisses.refl (c : Cache α ω) : c.MoreMisses c := ⟨0, rfl⟩

/-- More misses than more misses are more misses. -/
theorem MoreMisses.trans {c c' c'' : Cache α ω} (h : c.MoreMisses c') (h' : c'.MoreMisses c'') :
    c.MoreMisses c'' := by
  obtain ⟨j, rfl⟩ := h
  obtain ⟨k, rfl⟩ := h'
  refine ⟨j + k, ?_⟩
  rw [missed, missed, missed]
  simp only [Nat.add_assoc]

/-- After a store there are as many misses more as before. -/
theorem MoreMisses.store {c c' : Cache α ω} (h : c.MoreMisses c') (key : CacheKey) (m : Mesh α) :
    (c.store key m).MoreMisses (c'.store key m) := by
  obtain ⟨k, rfl⟩ := h
  exact ⟨k, c.store_missed k key m⟩

end Solids.Cache
