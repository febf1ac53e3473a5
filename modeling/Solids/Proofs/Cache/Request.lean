import Solids.Cache

/-!
# Requests to a cache

What a cache can be asked, as data (`Cache.Request`), with what it answers and the cache that it
then is (`Cache.serve`). A cache in use has served some list of requests from the empty one on
(`Cache.after`); all that is proved about caches in use is proved for all such lists.

An attachment is looked up by a partial function, which takes it or not: whoever attached a number
does not get a text.
-/

namespace Solids.Cache

variable {α ω β : Type}

/-- What a cache is asked. -/
inductive Request (α ω β : Type)
  | store (k : CacheKey) (m : Mesh α)
  | attach (k : CacheKey) (m : Material) (a : ω)
  | lookup (k : CacheKey)
  | lookupAttachment (k : CacheKey) (m : Material) (read : ω → Option β)
  | contains (k : CacheKey)
  | clear

/-- What is answered. -/
inductive Answer (α β : Type)
  | done
  | mesh (m : Option (Mesh α))
  | attachment (a : Option β)
  | contained (b : Bool)

/-- The answer to a request, and the cache after it. -/
def serve (c : Cache α ω) : Request α ω β → Answer α β × Cache α ω
  | .store k m => (.done, c.store k m)
  | .attach k m a => (.done, c.attach k m a)
  | .lookup k => (.mesh (c.lookup k).1, (c.lookup k).2)
  | .lookupAttachment k m read =>
    (.attachment (c.lookupAttachment k m read).1, (c.lookupAttachment k m read).2)
  | .contains k => (.contained (c.contains k), c)
  | .clear => (.done, c.clear)

/-- A lookup answers with the mesh under the key. -/
theorem lookup_fst (c : Cache α ω) (k : CacheKey) : (c.lookup k).1 = c.mesh? k := by
  rw [lookup]
  split
  · next m hm => exact hm.symm
  · next hm => exact hm.symm

/-- The cache after requests. -/
def after (c : Cache α ω) (rs : List (Request α ω β)) : Cache α ω :=
  rs.foldl (fun c r => (c.serve r).2) c

/-- What the first request left goes into the others. -/
@[simp] theorem after_cons (c : Cache α ω) (r : Request α ω β) (rs : List (Request α ω β)) :
    c.after (r :: rs) = (c.serve r).2.after rs := rfl

/-- What requests preserve, one after another, holds after them. -/
theorem after_induction {P : Cache α ω → Prop} {c : Cache α ω} (h : P c)
    (hserve : ∀ c (r : Request α ω β), P c → P (c.serve r).2) (rs : List (Request α ω β)) :
    P (c.after rs) := by
  induction rs generalizing c with
  | nil => exact h
  | cons r rs ih => exact ih (hserve c r h)

end Solids.Cache
