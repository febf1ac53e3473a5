import Solids.Build.Construct

/-!
# Building

A build gives every part of a tree its mesh, children before the parts that use them up, and
takes meshes from a cache and puts them there (`Node.build`).

* A part that is built already, or whose mesh is in the cache, is done. Its drawn children are
  still visited, those that were used up in the mesh are not.
* Any other part has its children built first, and then its own mesh made and stored.

A *probe* is asked before every child whether to stop; its `n`-th answer, counted from zero, is
`probe n`. If it says so nothing more is built. A part that waits for its children stays unbuilt,
all others stay as they are, so that what was finished is not lost.
-/

namespace Solids

/-- What a build goes along with: the cache, and how often the probe was asked. -/
structure Site (α ω : Type) where
  cache : Cache α ω
  polls : Nat := 0

variable {α ω : Type} [Scalar α]

/-- The cached mesh of a part, if its kind has one. -/
def Site.lookup (s : Site α ω) (n : Node α) : Option (Mesh α) × Site α ω :=
  if n.kind.hasOwnMesh then
    let (m, cache) := s.cache.lookup n.key
    (m, { s with cache })
  else (none, s)

/-- A part whose children are built, with its own mesh made and stored if its kind has one. -/
def Site.finish (s : Site α ω) (n : Node α) : Except Fault (Node α × Site α ω) := do
  if n.kind.hasOwnMesh then
    let m ← n.kind.construct n.children
    return ({ n with mesh := some m, state := .built },
      { s with cache := s.cache.store n.key m })
  else return ({ n with state := .built }, s)

namespace Node

mutual

/-- Builds a part and those below it; tells whether it came to the end. -/
def build (probe : Nat → Bool) :
    Node α → Site α ω → Except Fault (Bool × Node α × Site α ω)
  | n@{ kind, children, .. }, s => do
    let visit (n : Node α) (s : Site α ω) := do
      if kind.rendersChildren then
        let (done, children, s) ← buildAll probe children s
        return (done, { n with children }, s)
      else return (true, n, s)
    -- What is built stays so, whatever becomes of the children drawn beside it.
    if n.isBuilt then visit n s
    else
      let (found, s) := s.lookup n
      if found.isSome then visit { n with mesh := found, state := .built } s
      else
        let n := { n with state := .building }
        let (done, children, s) ← buildAll probe children s
        let n := { n with children }
        if done then
          let (n, s) ← s.finish n
          return (true, n, s)
        else return (false, { n with state := .unbuilt }, s)

/-- Builds parts in order, asking the probe before each. -/
def buildAll (probe : Nat → Bool) :
    List (Node α) → Site α ω → Except Fault (Bool × List (Node α) × Site α ω)
  | [], s => return (true, [], s)
  | n :: ns, s => do
    let stop := probe s.polls
    let s := { s with polls := s.polls + 1 }
    if stop then return (false, n :: ns, s)
    else
      let (done, n, s) ← build probe n s
      if done then
        let (done, ns, s) ← buildAll probe ns s
        return (done, n :: ns, s)
      else return (false, n :: ns, s)

end

end Node

end Solids
