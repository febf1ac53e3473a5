import Solids.Proofs.Build.Frame

/-!
# What a build does

A build asks the probe, visits parts, looks meshes up and makes those that it does not find. The
*log* of a build has these events one after another, up to the end of the build or to its fault
(`Node.logged`, `Node.loggedAll`).

* A log is of nothing but the build: without it the build is left (`Node.result_logged`,
  `Scene.result_logged`).
* It leaves nothing out: what becomes of the cache and of the number of polls is the effect of one
  event after another (`Site.Goes`).
-/

namespace Solids

variable {α ω β γ : Type}

/-! ## Logs -/

/-- What a build does. -/
inductive Event (α ω : Type)
  /-- The probe is asked whether to stop, with the cache as it is then. -/
  | poll (stop : Bool) (cache : Cache α ω)
  /-- A part is visited. -/
  | visit (n : Node α)
  /-- The mesh under a key is looked up. -/
  | lookup (k : CacheKey)
  /-- The own mesh of a part is made from its children, and stored. -/
  | construct (n : Node α) (m : Mesh α)

/-- A computation that may fault, with what it did before it ended. -/
structure Logged (α ω β : Type) where
  log : List (Event α ω)
  result : Except Fault β

namespace Logged

instance : Monad (Logged α ω) where
  pure x := ⟨[], .ok x⟩
  bind x f :=
    match x.result with
    | .ok y => ⟨x.log ++ (f y).log, (f y).result⟩
    | .error e => ⟨x.log, .error e⟩

/-- An event. -/
def note (e : Event α ω) : Logged α ω Unit := ⟨[e], .ok ()⟩

/-- A computation without events. -/
def of (r : Except Fault β) : Logged α ω β := ⟨[], r⟩

/-- A computation with events before it. -/
def after (es : List (Event α ω)) (x : Logged α ω β) : Logged α ω β := ⟨es ++ x.log, x.result⟩

@[simp] theorem log_after (es : List (Event α ω)) (x : Logged α ω β) :
    (x.after es).log = es ++ x.log := rfl

@[simp] theorem result_after (es : List (Event α ω)) (x : Logged α ω β) :
    (x.after es).result = x.result := rfl

/-- What follows a result is logged after it. -/
theorem bind_of_ok {x : Logged α ω β} {f : β → Logged α ω γ} {y : β} (h : x.result = .ok y) :
    x >>= f = (f y).after x.log := by
  obtain ⟨log, result⟩ := x
  subst h
  rfl

/-- Nothing follows a fault. -/
theorem bind_of_error {x : Logged α ω β} {f : β → Logged α ω γ} {e : Fault}
    (h : x.result = .error e) : x >>= f = ⟨x.log, .error e⟩ := by
  obtain ⟨log, result⟩ := x
  subst h
  rfl

/-- Events before others are before what comes after these. -/
theorem after_after (es es' : List (Event α ω)) (x : Logged α ω β) :
    (x.after es').after es = x.after (es ++ es') := by
  rw [after, log_after, ← List.append_assoc]
  rfl

/-- Events before a computation are before what follows it. -/
theorem bind_after (es : List (Event α ω)) (x : Logged α ω β) (f : β → Logged α ω γ) :
    x.after es >>= f = (x >>= f).after es := by
  cases h : x.result with
  | ok y => rw [bind_of_ok h, bind_of_ok (x := x.after es) h, after_after, log_after]
  | error e =>
    rw [bind_of_error h, bind_of_error (x := x.after es) h]
    rfl

/-- The result of two computations is that of their results. -/
theorem result_bind (x : Logged α ω β) (f : β → Logged α ω γ) :
    (x >>= f).result = x.result >>= fun y => (f y).result := by
  cases h : x.result with
  | ok y =>
    rw [bind_of_ok h]
    rfl
  | error e =>
    rw [bind_of_error h]
    rfl

end Logged

open Logged (note)

/-- What is done to look up the mesh of a part: nothing, if its kind has none. -/
def Node.lookups (n : Node α) : List (Event α ω) :=
  if n.kind.hasOwnMesh then [.lookup n.key] else []

variable [Scalar α] {probe : Nat → Bool}

/-- A part whose children are built, with its own mesh made and stored if its kind has one, and
    with a log. -/
def Site.loggedFinish (s : Site α ω) (n : Node α) : Logged α ω (Node α × Site α ω) := do
  if n.kind.hasOwnMesh then
    let m ← Logged.of (n.kind.construct n.children)
    note (.construct n m)
    return ({ n with mesh := some m, state := .built },
      { s with cache := s.cache.store n.key m })
  else return ({ n with state := .built }, s)

namespace Node

mutual

/-- Builds a part and those below it, with a log. -/
def logged (probe : Nat → Bool) :
    Node α → Site α ω → Logged α ω (Bool × Node α × Site α ω)
  | n@{ kind, children, .. }, s => do
    let visit (n : Node α) (s : Site α ω) := do
      if kind.rendersChildren then
        let (done, children, s) ← loggedAll probe children s
        return (done, { n with children }, s)
      else return (true, n, s)
    note (.visit n)
    if n.isBuilt then visit n s
    else
      let (found, s) ← Logged.mk n.lookups (.ok (s.lookup n))
      if found.isSome then visit { n with mesh := found, state := .built } s
      else
        let n := { n with state := .building }
        let (done, children, s) ← loggedAll probe children s
        let n := { n with children }
        if done then
          let (n, s) ← s.loggedFinish n
          return (true, n, s)
        else return (false, { n with state := .unbuilt }, s)

/-- Builds parts in order, asking the probe before each, with a log. -/
def loggedAll (probe : Nat → Bool) :
    List (Node α) → Site α ω → Logged α ω (Bool × List (Node α) × Site α ω)
  | [], s => return (true, [], s)
  | n :: ns, s => do
    let stop := probe s.polls
    note (.poll stop s.cache)
    let s := { s with polls := s.polls + 1 }
    if stop then return (false, n :: ns, s)
    else
      let (done, n, s) ← logged probe n s
      if done then
        let (done, ns, s) ← loggedAll probe ns s
        return (done, n :: ns, s)
      else return (false, n :: ns, s)

end

/-! ## The cases of a build with a log -/

/-- The build of the children that are drawn beside a part which is done itself, with a log. -/
def loggedDrawn (probe : Nat → Bool) (n : Node α) (s : Site α ω) :
    Logged α ω (Bool × Node α × Site α ω) := do
  if n.kind.rendersChildren then
    let (done, children, s) ← loggedAll probe n.children s
    return (done, { n with children }, s)
  else return (true, n, s)

/-- The build of the children that a part needs for its own mesh, and of that mesh, with a log. -/
def loggedAnew (probe : Nat → Bool) (n : Node α) (s : Site α ω) :
    Logged α ω (Bool × Node α × Site α ω) := do
  let (done, children, s) ← loggedAll probe n.children s
  if done then
    let (n, s) ← s.loggedFinish { n with state := .building, children }
    return (true, n, s)
  else return (false, { n with state := .unbuilt, children }, s)

/-- What a build does with a part that it has come to, with a log. -/
def loggedInside (probe : Nat → Bool) (n : Node α) (s : Site α ω) :
    Logged α ω (Bool × Node α × Site α ω) :=
  if n.isBuilt then n.loggedDrawn probe s
  else Logged.after n.lookups <|
    if (s.lookup n).1.isSome then
      loggedDrawn probe { n with mesh := (s.lookup n).1, state := .built } (s.lookup n).2
    else n.loggedAnew probe (s.lookup n).2

/-- A build comes to the part first. -/
theorem logged_eq (n : Node α) (s : Site α ω) :
    n.logged probe s = (n.loggedInside probe s).after [.visit n] := by
  cases n
  rw [logged]
  rfl

/-- A build of no parts does nothing. -/
theorem loggedAll_nil (s : Site α ω) : loggedAll probe [] s = ⟨[], .ok (true, [], s)⟩ := by
  rw [loggedAll]
  rfl

/-- A build of parts asks the probe, and comes to the first part if that lets it. -/
theorem loggedAll_cons (n : Node α) (ns : List (Node α)) (s : Site α ω) :
    loggedAll probe (n :: ns) s =
      if probe s.polls then
        ⟨[.poll true s.cache], .ok (false, n :: ns, { s with polls := s.polls + 1 })⟩
      else Logged.after [.poll false s.cache] do
        let (done, n, s) ← n.logged probe { s with polls := s.polls + 1 }
        if done then
          let (done, ns, s) ← loggedAll probe ns s
          return (done, n :: ns, s)
        else return (false, n :: ns, s) := by
  rw [loggedAll]
  cases probe s.polls <;> rfl

/-! ## Without the log -/

/-- Without its log, a part is finished as it is. -/
theorem result_loggedFinish (s : Site α ω) (n : Node α) :
    (s.loggedFinish n).result = s.finish n := by
  rw [Site.loggedFinish, Site.finish]
  split
  · exact Logged.result_bind _ _
  · rfl

/-- Without its log, a build of parts is what it is if that holds of every part. -/
theorem result_loggedAll {ns : List (Node α)}
    (h : ∀ n ∈ ns, ∀ s : Site α ω, (n.logged probe s).result = n.build probe s)
    (s : Site α ω) : (loggedAll probe ns s).result = buildAll probe ns s := by
  induction ns generalizing s with
  | nil =>
    rw [loggedAll_nil, buildAll]
    rfl
  | cons n ns ih =>
    obtain ⟨hn, hns⟩ := List.forall_mem_cons.1 h
    rw [loggedAll_cons, buildAll]
    dsimp only
    split
    · rfl
    · rw [Logged.result_after, Logged.result_bind, hn]
      refine bind_congr ?_
      rintro ⟨done, n', s'⟩
      cases done with
      | false => rfl
      | true =>
        rw [if_pos rfl, if_pos rfl, Logged.result_bind, ih hns]
        rfl

section Children

variable {n : Node α}
  (hall : ∀ s : Site α ω, (loggedAll probe n.children s).result = buildAll probe n.children s)
include hall

/-- Without its log, the build of the drawn children is what it is if that holds of the list. -/
theorem result_loggedDrawn (s : Site α ω) :
    (n.loggedDrawn probe s).result = n.buildDrawn probe s := by
  rw [loggedDrawn, buildDrawn]
  split
  · rw [Logged.result_bind, hall]
    rfl
  · rfl

/-- Without its log, the build of the children and of the mesh is what it is if that holds of the
    list. -/
theorem result_loggedAnew (s : Site α ω) :
    (n.loggedAnew probe s).result = n.buildAnew probe s := by
  rw [loggedAnew, buildAnew, Logged.result_bind, hall]
  refine bind_congr ?_
  rintro ⟨done, children, s'⟩
  cases done with
  | false => rfl
  | true =>
    dsimp only
    rw [if_pos rfl, if_pos rfl, Logged.result_bind, result_loggedFinish]
    rfl

end Children

/-- Without its log, a build is what it is. -/
theorem result_logged (n : Node α) (s : Site α ω) :
    (n.logged probe s).result = n.build probe s := by
  induction n using induction generalizing s with
  | step n ih =>
    have hall (s : Site α ω) := result_loggedAll ih s
    rw [logged_eq, Logged.result_after, loggedInside, build_eq]
    split
    · exact result_loggedDrawn hall s
    · rw [Logged.result_after]
      split
      · exact result_loggedDrawn (n := { n with mesh := _, state := _ }) hall _
      · exact result_loggedAnew hall _

end Node

/-- Builds the roots of a scene in order, asking the probe before each, with a log. -/
def Scene.logged (probe : Nat → Bool) (scene : Scene α) (s : Site α ω) :
    Logged α ω (Bool × Scene α × Site α ω) := do
  let (done, roots, s) ← Node.loggedAll probe scene.roots s
  return (done, { scene with roots }, s)

/-- Without its log, a build of a scene is what it is. -/
theorem Scene.result_logged (scene : Scene α) (s : Site α ω) :
    (scene.logged probe s).result = scene.build probe s := by
  rw [logged, build, Logged.result_bind, Node.result_loggedAll fun n _ => n.result_logged]
  rfl

/-! ## The effect of events -/

/-- The answers of the probe in a log. -/
def answers (es : List (Event α ω)) : List Bool :=
  es.filterMap fun
    | .poll stop _ => some stop
    | _ => none

/-- What an event leaves of a site. -/
def Event.effect (s : Site α ω) : Event α ω → Site α ω
  | .poll _ _ => { s with polls := s.polls + 1 }
  | .visit _ => s
  | .lookup k => { s with cache := (s.cache.lookup k).2 }
  | .construct n m => { s with cache := s.cache.store n.key m }

/-- An event can happen at a site: the answer is the one that the probe gives now, the cache is the
    one that there is, and the mesh is the one that is made of the children. -/
def Event.Fits (probe : Nat → Bool) (s : Site α ω) : Event α ω → Prop
  | .poll stop cache => stop = probe s.polls ∧ cache = s.cache
  | .visit _ | .lookup _ => True
  | .construct n m => n.kind.construct n.children = .ok m

/-- From one site to another by way of events. -/
inductive Site.Goes (probe : Nat → Bool) : Site α ω → List (Event α ω) → Site α ω → Prop
  | nil (s : Site α ω) : Goes probe s [] s
  | cons {s s' : Site α ω} {e : Event α ω} {es : List (Event α ω)} :
      e.Fits probe s → Goes probe (e.effect s) es s' → Goes probe s (e :: es) s'

namespace Site.Goes

variable {s s' s'' : Site α ω} {es es' : List (Event α ω)}

/-- Events go on where others have led to. -/
theorem append (h : s.Goes probe es s') (h' : s'.Goes probe es' s'') :
    s.Goes probe (es ++ es') s'' := by
  induction h with
  | nil => exact h'
  | cons he _ ih => exact .cons he (ih h')

/-- Between events there is a site. -/
theorem exists_of_append (h : s.Goes probe (es ++ es') s'') :
    ∃ s', s.Goes probe es s' ∧ s'.Goes probe es' s'' := by
  induction es generalizing s with
  | nil => exact ⟨s, .nil s, h⟩
  | cons e es ih =>
    cases h with
    | cons he h =>
      obtain ⟨s', h, h'⟩ := ih h
      exact ⟨s', .cons he h, h'⟩

/-- The polls are counted, and their answers are those of the probe, one after another. -/
theorem polls_eq (h : s.Goes probe es s') :
    s'.polls = s.polls + (answers es).length ∧
      answers es = (List.range' s.polls (answers es).length).map probe := by
  induction h with
  | nil => exact ⟨rfl, rfl⟩
  | @cons s s' e es he _ ih =>
    cases e with
    | poll stop cache =>
      obtain ⟨rfl, rfl⟩ := he
      obtain ⟨hpolls, hanswers⟩ := ih
      refine ⟨hpolls.trans ?_, ?_⟩
      · exact Nat.add_right_comm s.polls 1 _
      · exact congrArg _ hanswers
    | visit n => exact ih
    | lookup k => exact ih
    | construct n m => exact ih

/-- A poll is answered by what the probe says after the polls before it. -/
theorem answer_eq {stop : Bool} {cache : Cache α ω}
    (h : s.Goes probe (es ++ .poll stop cache :: es') s') :
    probe (s.polls + (answers es).length) = stop := by
  obtain ⟨s₁, h, h'⟩ := h.exists_of_append
  cases h' with
  | cons he _ => exact h.polls_eq.1 ▸ he.1.symm

/-- A poll leaves the cache as it finds it. -/
theorem cache_eq {stop : Bool} {cache : Cache α ω}
    (h : s.Goes probe (es ++ [.poll stop cache]) s') : s'.cache = cache := by
  obtain ⟨s₁, _, h⟩ := h.exists_of_append
  cases h with
  | cons he h =>
    cases h
    exact he.2.symm

end Site.Goes

end Solids
