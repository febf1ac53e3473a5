import Solids.Cache.Table
import Solids.Cache.Timeline
import Solids.Key

/-!
# The cache of meshes

Built meshes by key, up to a limit on their total cost. An entry may carry attachments, one per
material, with or without a mesh. Every use of an entry, to store or to find something, makes it
the most recent one; when the cost is above the limit, entries are dropped from the least recent
one on.

The order of use is kept beside the entries: every use takes a new tick, an entry knows the tick
of its last use, and `Cache.recency` has the keys by these ticks. The tick that an entry had before
is taken out when the entry gets a new one.
-/

namespace Solids

/-- What is kept under a key: a mesh and attachments of some type `ω`, one per material. -/
structure CacheContent (α ω : Type) where
  /-- The built mesh; there may be attachments alone. -/
  mesh : Option (Mesh α) := none
  attachments : Table Material.Identity ω := {}

/-- What is kept under a key, with what the cache knows about it. -/
structure CacheEntry (α ω : Type) extends CacheContent α ω where
  /-- The cost of the mesh and of all attachments. -/
  cost : Nat
  /-- The tick of the last use. -/
  lastUsed : Nat

/-- Counts of what a cache did. -/
structure CacheStats where
  /-- Lookups that found a mesh. -/
  hits : Nat := 0
  /-- Lookups that found none. -/
  misses : Nat := 0
  /-- Entries dropped to stay under the limit. -/
  evictions : Nat := 0
  /-- Meshes stored. -/
  stored : Nat := 0
  deriving DecidableEq

/-- The share of lookups that found a mesh; zero if there were none. -/
def CacheStats.hitRate (s : CacheStats) : Float :=
  let total := s.hits + s.misses
  if total = 0 then 0.0 else Float.ofNat s.hits / Float.ofNat total

/-- Built meshes by key, up to a limit on their total cost. -/
structure Cache (α ω : Type) where
  entries : Table CacheKey (CacheEntry α ω) := {}
  /-- The keys by the tick of their last use. -/
  recency : Timeline CacheKey := {}
  /-- The cost above which entries are dropped. -/
  limit : Nat
  /-- The sum of the entries' costs. -/
  totalCost : Nat := 0
  /-- The last tick taken. -/
  tick : Nat := 0
  stats : CacheStats := {}

namespace Cache

/-! ## Costs -/

/-- The cost of a triangle beside its corners. -/
def polygonCost : Nat := 28

/-- The cost of a triangle's corner. -/
def vertexCost : Nat := 24

/-- The cost of an attachment. -/
def attachmentCost : Nat := 100

/-- The limit of a cache that was given none. -/
def defaultLimit : Nat := 1000000000

variable {α ω : Type}

/-- The cost of a mesh, by its triangles. -/
def meshCost (m : Mesh α) : Nat :=
  m.triangleCount * (polygonCost + 3 * vertexCost)

/-! ## Reading -/

/-- The cache without entries. -/
def new (limit : Nat) : Cache α ω := { limit }

/-- The number of entries, with a mesh or without. -/
def size (c : Cache α ω) : Nat := c.entries.size

/-- There are no entries. -/
def isEmpty (c : Cache α ω) : Bool := c.entries.isEmpty

/-- What is kept under a key; nothing if there is no entry. -/
def content (c : Cache α ω) (k : CacheKey) : CacheContent α ω :=
  match c.entries.get? k with
  | some e => e.toCacheContent
  | none => {}

/-- What the entry under a key costs; nothing if there is none. -/
def costAt (c : Cache α ω) (k : CacheKey) : Nat :=
  match c.entries.get? k with
  | some e => e.cost
  | none => 0

/-- The mesh under a key. This is no use of the entry. -/
def mesh? (c : Cache α ω) (k : CacheKey) : Option (Mesh α) := (c.content k).mesh

/-- There is a mesh under the key. This is no use of the entry. -/
def contains (c : Cache α ω) (k : CacheKey) : Bool := (c.mesh? k).isSome

/-- The attachment for a material under a key. This is no use of the entry. -/
def attachment? (c : Cache α ω) (k : CacheKey) (m : Material.Identity) : Option ω :=
  (c.content k).attachments.get? m

/-! ## The order of use -/

/-- The order of use without the entry under a key. -/
def recencyWithout (c : Cache α ω) (k : CacheKey) : Timeline CacheKey :=
  match c.entries.get? k with
  | some e => c.recency.erase e.lastUsed
  | none => c.recency

/-- The entry under a key with a new content and cost, used at a new tick. -/
def use (c : Cache α ω) (k : CacheKey) (content : CacheContent α ω) (cost : Nat) : Cache α ω :=
  let tick := c.tick + 1
  { c with
    tick
    entries := c.entries.insert k { content with cost, lastUsed := tick }
    recency := (c.recencyWithout k).insert tick k }

/-- The entry under a key, if there is one, becomes the most recent. -/
def touch (c : Cache α ω) (k : CacheKey) : Cache α ω :=
  match c.entries.get? k with
  | some e => c.use k e.toCacheContent e.cost
  | none => { c with tick := c.tick + 1 }

/-! ## Dropping entries -/

/-- The cache without the entry under a key. -/
def drop (c : Cache α ω) (k : CacheKey) : Cache α ω :=
  match c.entries.get? k with
  | some e =>
    { c with
      entries := c.entries.erase k
      totalCost := c.totalCost - e.cost
      stats := { c.stats with evictions := c.stats.evictions + 1 } }
  | none => c

/-- The cache without the entry of the earliest use. -/
def evictOldest (c : Cache α ω) : Cache α ω :=
  match c.recency.uses with
  | use :: _ => { c with recency := c.recency.tail }.drop use.2
  | [] => c

/-- The cache, whose order of use is `uses`, after entries were dropped from the least recent on
    until the cost is within the limit. -/
def evictFrom : List (Nat × CacheKey) → Cache α ω → Cache α ω
  | [], c => c
  | _ :: uses, c => if c.limit < c.totalCost then evictFrom uses c.evictOldest else c

/-- The cache within its limit. -/
def evict (c : Cache α ω) : Cache α ω := evictFrom c.recency.uses c

/-! ## Uses -/

/-- The mesh under a key, whose entry becomes the most recent if it has one. -/
def lookup (c : Cache α ω) (k : CacheKey) : Option (Mesh α) × Cache α ω :=
  match c.mesh? k with
  | some m => (some m, { c with stats := { c.stats with hits := c.stats.hits + 1 } }.touch k)
  | none => (none, { c with stats := { c.stats with misses := c.stats.misses + 1 } })

/-- The cache with a mesh under a key, however great the cost. Attachments under the key stay. -/
def putMesh (c : Cache α ω) (k : CacheKey) (m : Mesh α) : Cache α ω :=
  -- Attachments go with the key and not with the mesh, so they count into the new cost.
  let content := { c.content k with mesh := some m }
  let cost := meshCost m + content.attachments.size * attachmentCost
  { c.use k content cost with
    totalCost := c.totalCost - c.costAt k + cost
    stats := { c.stats with stored := c.stats.stored + 1 } }

/-- A mesh stored under a key. -/
def store (c : Cache α ω) (k : CacheKey) (m : Mesh α) : Cache α ω := (c.putMesh k m).evict

/-- What is attached for a material under a key, as `read` takes it. The entry becomes the most
    recent if anything is attached, whether `read` takes it or not. -/
def lookupAttachment {β : Type} (c : Cache α ω) (k : CacheKey) (m : Material)
    (read : ω → Option β) : Option β × Cache α ω :=
  match c.attachment? k m.identity with
  | some a => (read a, c.touch k)
  | none => (none, c)

/-- The cache with an attachment for a material under a key, however great the cost. It takes the
    place of the one that was there, and a key without an entry gets one without a mesh. -/
def putAttachment (c : Cache α ω) (k : CacheKey) (m : Material) (a : ω) : Cache α ω :=
  let content := c.content k
  -- An attachment that takes the place of another costs nothing more.
  let extra := if (content.attachments.get? m.identity).isNone then attachmentCost else 0
  let attachments := content.attachments.insert m.identity a
  { c.use k { content with attachments } (c.costAt k + extra) with
    totalCost := c.totalCost + extra }

/-- An attachment stored for a material under a key. -/
def attach (c : Cache α ω) (k : CacheKey) (m : Material) (a : ω) : Cache α ω :=
  (c.putAttachment k m a).evict

/-- The cache without entries. Its counts stay. -/
def clear (c : Cache α ω) : Cache α ω :=
  { c with entries := {}, recency := {}, totalCost := 0 }

end Cache

end Solids
