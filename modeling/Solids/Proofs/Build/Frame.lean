import Solids.Proofs.Node.Parts
import Solids.Scene

/-!
# What a build leaves as it is

A build may fault on a mesh that was written down badly, so what is known of it is known of its
result if it has one, and else what is known is that it faulted (`Outcome`). `Node.build_eq` has
the cases of a build, and `Node.buildAll_outcome` is the rule for a list: what each tree of the
list keeps of the cache, all of them together keep.

The first use of the rule is `Node.build_fresh`: a build changes nothing but how far parts are
built, and their meshes.
-/

namespace Solids

/-! ## Outcomes -/

section Outcome

variable {β γ : Type} {fault fault' : Prop} {post post' : β → Prop}

/-- What is known of a computation that may fault: one thing of its result, another if it has
    none. -/
def Outcome (r : Except Fault β) (fault : Prop) (post : β → Prop) : Prop :=
  match r with
  | .ok x => post x
  | .error _ => fault

instance (r : Except Fault β) [Decidable fault] [DecidablePred post] :
    Decidable (Outcome r fault post) :=
  match r with
  | .ok x => inferInstanceAs (Decidable (post x))
  | .error _ => inferInstanceAs (Decidable fault)

/-- What is known of the result holds of it. -/
theorem Outcome.of_ok {r : Except Fault β} (h : Outcome r fault post) {x : β} (hx : r = .ok x) :
    post x := by
  subst hx
  exact h

/-- A computation that cannot fault has a result as is known of it. -/
theorem Outcome.exists_ok {r : Except Fault β} (h : Outcome r False post) :
    ∃ x, r = .ok x ∧ post x := by
  cases r with
  | ok x => exact ⟨x, rfl, h⟩
  | error e => exact absurd h id

/-- What follows from what is known is known. -/
theorem Outcome.imp {r : Except Fault β} (h : Outcome r fault post) (hfault : fault → fault')
    (hpost : ∀ x, post x → post' x) : Outcome r fault' post' := by
  cases r with
  | ok x => exact hpost x h
  | error f => exact hfault h

/-- What is known of a computation goes into what follows it. -/
theorem Outcome.bind {r : Except Fault β} {f : β → Except Fault γ} {post' : γ → Prop}
    (h : Outcome r fault post) (hfault : fault → fault')
    (hf : ∀ x, post x → Outcome (f x) fault' post') : Outcome (r >>= f) fault' post' := by
  cases r with
  | ok x => exact hf x h
  | error e => exact hfault h

/-- What is known of every element's result is known of all results for a list. -/
theorem Outcome.mapM {f : β → Except Fault γ} {xs : List β} {post' : γ → Prop}
    (h : ∀ x ∈ xs, Outcome (f x) fault post') :
    Outcome (xs.mapM f) fault fun ys => ∀ y ∈ ys, post' y := by
  induction xs with
  | nil => exact fun _ hy => absurd hy List.not_mem_nil
  | cons x xs ih =>
    obtain ⟨hx, hxs⟩ := List.forall_mem_cons.1 h
    rw [List.mapM_cons]
    exact hx.bind id fun y hy => (ih hxs).bind id fun ys hys => List.forall_mem_cons.2 ⟨hy, hys⟩

/-- What every step keeps is kept along a list. -/
theorem Outcome.foldlM {f : β → γ → Except Fault β} {x : β} {ys : List γ} (hx : post x)
    (h : ∀ x, post x → ∀ y ∈ ys, Outcome (f x y) fault post) :
    Outcome (ys.foldlM f x) fault post := by
  induction ys generalizing x with
  | nil => exact hx
  | cons y ys ih =>
    rw [List.foldlM_cons]
    exact (h x hx y List.mem_cons_self).bind id fun x' hx' =>
      ih hx' fun x hx z hz => h x hx z (List.mem_cons_of_mem y hz)

/-- A computation has the outcome that it has. -/
theorem outcome_self (r : Except Fault β) : Outcome r (∃ e, r = .error e) fun x => r = .ok x := by
  cases r with
  | ok x => exact rfl
  | error e => exact ⟨e, rfl⟩

/-- A computation and what follows it have a result if both have. -/
theorem bind_eq_ok_iff {r : Except Fault β} {f : β → Except Fault γ} {y : γ} :
    r >>= f = .ok y ↔ ∃ x, r = .ok x ∧ f x = .ok y := by
  cases r with
  | ok x =>
    constructor
    · intro h
      exact ⟨x, rfl, h⟩
    · rintro ⟨_, hx, h⟩
      cases hx
      exact h
  | error e =>
    constructor
    · intro h
      cases h
    · rintro ⟨_, hx, _⟩
      cases hx

/-- A computation whose result is taken further has a result. -/
theorem map_eq_ok_iff {r : Except Fault β} {f : β → γ} {y : γ} :
    r.map f = .ok y ↔ ∃ x, r = .ok x ∧ f x = y := by
  cases r with
  | ok x => simp [Except.map]
  | error e => simp [Except.map]

/-- What was found is the result. -/
theorem eq_ok_of_mem_toOption {ε β : Type} {x : Except ε β} {y : β} (h : y ∈ x.toOption) :
    x = .ok y := by
  cases x with
  | error e => cases h
  | ok z => rw [Option.some.inj h]

/-- Whether a computation tells that it came to the end, if it has a result. -/
def done? (r : Except Fault (Bool × β)) : Option Bool :=
  match r with
  | .ok x => some x.1
  | .error _ => none

/-- A computation that tells something has a result. -/
theorem exists_of_done? {r : Except Fault (Bool × β)} {done : Bool} (h : done? r = some done) :
    ∃ x, r = .ok (done, x) := by
  cases r with
  | ok x =>
    cases h
    exact ⟨x.2, rfl⟩
  | error e => cases h

end Outcome

/-- What is in one of two related lists is related to something in the other. -/
theorem exists_mem_of_forall₂ {β γ : Type} {R : β → γ → Prop} {xs : List β} {ys : List γ}
    (h : List.Forall₂ R xs ys) {y : γ} (hy : y ∈ ys) : ∃ x ∈ xs, R x y := by
  induction h with
  | nil => cases hy
  | @cons x y' xs ys hxy _ ih =>
    rcases List.mem_cons.1 hy with rfl | hy
    · exact ⟨x, List.mem_cons_self, hxy⟩
    · obtain ⟨x', hx', hxy'⟩ := ih hy
      exact ⟨x', List.mem_cons_of_mem x hx', hxy'⟩

variable {α ω : Type} [Scalar α] {probe : Nat → Bool}

namespace Node

/-! ## The cases of a build -/

/-- A build of the children that are drawn beside a part which is done itself. -/
def buildDrawn (probe : Nat → Bool) (n : Node α) (s : Site α ω) :
    Except Fault (Bool × Node α × Site α ω) := do
  if n.kind.rendersChildren then
    let (done, children, s) ← buildAll probe n.children s
    return (done, { n with children }, s)
  else return (true, n, s)

/-- A build of the children that a part needs for its own mesh, and of that mesh. -/
def buildAnew (probe : Nat → Bool) (n : Node α) (s : Site α ω) :
    Except Fault (Bool × Node α × Site α ω) := do
  let (done, children, s) ← buildAll probe n.children s
  if done then
    let (n, s) ← s.finish { n with state := .building, children }
    return (true, n, s)
  else return (false, { n with state := .unbuilt, children }, s)

/-- A part is done if it is built or in the cache, and is built anew if not. -/
theorem build_eq (n : Node α) (s : Site α ω) :
    n.build probe s =
      if n.isBuilt then n.buildDrawn probe s
      else if (s.lookup n).1.isSome then
        buildDrawn probe { n with mesh := (s.lookup n).1, state := .built } (s.lookup n).2
      else n.buildAnew probe (s.lookup n).2 := by
  cases n
  rw [build]
  rfl

/-! ## Building a list -/

section List

variable (keeps : Cache α ω → Prop) (fault : Node α → Prop) (rel : Node α → Node α → Prop)
  (finished : Node α → Prop)

/-- What the builds of the trees of a list keep of the cache is kept in the end; every tree is
    what its build made of it, or what it was; and all are finished if the build of the list came
    to the end. -/
theorem buildAll_outcome (hrefl : ∀ n, rel n n) {ns : List (Node α)} {s : Site α ω}
    (hs : keeps s.cache)
    (h : ∀ n ∈ ns, ∀ s : Site α ω, keeps s.cache → Outcome (n.build probe s) (fault n)
      fun r => keeps r.2.2.cache ∧ rel n r.2.1 ∧ (r.1 = true → finished r.2.1)) :
    Outcome (buildAll probe ns s) (∃ n ∈ ns, fault n) fun r =>
      keeps r.2.2.cache ∧ List.Forall₂ rel ns r.2.1 ∧ (r.1 = true → ∀ n ∈ r.2.1, finished n) := by
  have hsame (ns : List (Node α)) : List.Forall₂ rel ns ns := List.forall₂_same.2 fun n _ => hrefl n
  induction ns generalizing s with
  | nil =>
    rw [buildAll]
    exact ⟨hs, .nil, fun _ _ hn => absurd hn List.not_mem_nil⟩
  | cons n ns ih =>
    obtain ⟨hn, hns⟩ := List.forall_mem_cons.1 h
    rw [buildAll]
    split
    · exact ⟨hs, hsame _, fun hdone => absurd hdone Bool.false_ne_true⟩
    · refine (hn { s with polls := s.polls + 1 } hs).bind (fun hf => ⟨n, List.mem_cons_self, hf⟩) ?_
      rintro ⟨done, n', s'⟩ ⟨hs', hrel, hfin⟩
      cases done with
      | false => exact ⟨hs', .cons hrel (hsame _), fun hdone => absurd hdone Bool.false_ne_true⟩
      | true =>
        refine (ih hs' hns).bind (fun ⟨m, hm, hf⟩ => ⟨m, List.mem_cons_of_mem _ hm, hf⟩) ?_
        rintro ⟨done, ns', s''⟩ ⟨hs'', hrels, hfins⟩
        exact ⟨hs'', .cons hrel hrels,
          fun hdone => List.forall_mem_cons.2 ⟨hfin rfl, hfins hdone⟩⟩

/-- What the builds of trees leave good, the builds of all of them leave good, and the trees are the
    same ones. -/
theorem buildAll_good (good : Node α → Prop) {ns : List (Node α)} {s : Site α ω}
    (hs : keeps s.cache) (hns : ∀ n ∈ ns, good n)
    (h : ∀ n ∈ ns, ∀ s : Site α ω, keeps s.cache → Outcome (n.build probe s) (fault n) fun r =>
      keeps r.2.2.cache ∧ (r.2.1.fresh = n.fresh ∧ good r.2.1) ∧ (r.1 = true → finished r.2.1)) :
    Outcome (buildAll probe ns s) (∃ n ∈ ns, fault n) fun r =>
      keeps r.2.2.cache ∧ (r.2.1.map fresh = ns.map fresh ∧ ∀ n ∈ r.2.1, good n) ∧
        (r.1 = true → ∀ n ∈ r.2.1, finished n) := by
  have hlist := buildAll_outcome keeps fault
    (fun n n' => n'.fresh = n.fresh ∧ (good n → good n')) finished (fun _ => ⟨rfl, id⟩) hs
    fun n hn s hs => (h n hn s hs).imp id fun r ⟨hcache, ⟨hfresh, hr⟩, hfin⟩ =>
      ⟨hcache, ⟨hfresh, fun _ => hr⟩, hfin⟩
  refine hlist.imp id ?_
  rintro ⟨done, ns', s'⟩ ⟨hcache, hrel, hfin⟩
  refine ⟨hcache, ⟨?_, fun n' hn' => ?_⟩, hfin⟩
  · rw [← List.forall₂_eq_eq_eq, List.forall₂_map_left_iff, List.forall₂_map_right_iff]
    exact hrel.flip.imp fun _ _ hn => hn.1
  · obtain ⟨n, hn, -, hr⟩ := exists_mem_of_forall₂ hrel hn'
    exact hr (hns n hn)

end List

/-! ## What stays -/

/-- A part whose own mesh is made is otherwise what it was. -/
theorem finish_fresh (n : Node α) (s : Site α ω) :
    Outcome (s.finish n) True fun r => r.1.fresh = n.fresh := by
  rw [Site.finish]
  split
  · refine (outcome_self _).bind (fun _ => trivial) fun m _ => ?_
    exact fresh_update n .built (some m)
  · exact fresh_update n .built n.mesh

section Children

variable {n : Node α} (hall : ∀ s : Site α ω,
  Outcome (buildAll probe n.children s) True fun r => r.2.1.map fresh = n.children.map fresh)
include hall

/-- A build of the children that are drawn changes nothing else if it does not in a list. -/
theorem buildDrawn_fresh (s : Site α ω) :
    Outcome (n.buildDrawn probe s) True fun r => r.2.1.fresh = n.fresh := by
  rw [buildDrawn]
  split
  · exact (hall s).bind id fun r hr => fresh_with_children hr
  · exact rfl

/-- A build of the children and of the mesh changes nothing else if it does not in a list. -/
theorem buildAnew_fresh (s : Site α ω) :
    Outcome (n.buildAnew probe s) True fun r => r.2.1.fresh = n.fresh := by
  rw [buildAnew]
  refine (hall s).bind id ?_
  rintro ⟨done, children, s'⟩ hchildren
  have hstate (state : BuildState) : fresh { n with state, children } = n.fresh :=
    (fresh_update { n with children } state n.mesh).trans (fresh_with_children hchildren)
  cases done with
  | false => exact hstate .unbuilt
  | true => exact (finish_fresh _ s').bind id fun r hr => hr.trans (hstate .building)

end Children

/-- A build changes nothing but how far parts are built, and their meshes. -/
theorem build_fresh (n : Node α) (s : Site α ω) :
    Outcome (n.build probe s) True fun r => r.2.1.fresh = n.fresh := by
  induction n using induction generalizing s with
  | step n ih =>
    have hall (s : Site α ω) : Outcome (buildAll probe n.children s) True fun r =>
        r.2.1.map fresh = n.children.map fresh := by
      have hlist := buildAll_good (fun _ => True) (fun _ => True) (fun _ => True) (fun _ => True)
        (s := s) trivial (fun _ _ => trivial) fun c hc s _ =>
          (ih c hc s).imp id fun _ hr => ⟨trivial, ⟨hr, trivial⟩, fun _ => trivial⟩
      exact hlist.imp (fun _ => trivial) fun r hr => hr.2.1.1
    rw [build_eq]
    split_ifs
    · exact buildDrawn_fresh hall s
    · have hdrawn := buildDrawn_fresh (n := { n with mesh := (s.lookup n).1, state := .built })
        hall (s.lookup n).2
      exact hdrawn.imp id fun r hr => hr.trans (fresh_update n .built _)
    · exact buildAnew_fresh hall _

end Node

end Solids
