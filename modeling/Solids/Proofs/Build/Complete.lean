import Solids.Proofs.Build.Coherent
import Solids.Proofs.Build.Log
import Solids.Proofs.Build.Polls
import Solids.Proofs.Build.Settled

/-!
# Builds that come to the end

A build that comes to the end leaves the tree *finished* (`Node.Finished`): all parts that are drawn
are built (`Node.finished_iff`, `Node.finished_of_build`). The meshes made on the way are made from
children that are built, and are in the tree (`Node.includes_logged`).

Another build then has nothing to do. It asks the probe, but looks up nothing and makes nothing
(`Node.idle_build`).
-/

namespace Solids

variable {α ω β : Type}

/-- A build that has nothing to do leaves what it is for, and the cache, as they are, and comes to
    the end if the probe says so at none of its polls. -/
def Idle (probe : Nat → Bool) (z : β) (s : Site α ω)
    (r : Except Fault (Bool × β × Site α ω)) : Prop :=
  ∃ done polls, r = .ok (done, z, { s with polls }) ∧ s.polls ≤ polls ∧
    ((∀ i, s.polls ≤ i → i < polls → probe i = false) → done = true)

/-- Where nothing but polls is made nothing is done, and the last of them is the one that says to
    stop. -/
theorem idle_ask (k : Nat) (z : β) (s : Site α ω) :
    Idle probe z s (.ok ((s.ask probe k).1, z, (s.ask probe k).2)) := by
  induction k generalizing s with
  | zero => exact ⟨true, s.polls, rfl, Nat.le_refl _, fun _ => rfl⟩
  | succ k ih =>
    rw [Site.ask]
    split
    · next hstop =>
      refine ⟨false, s.polls + 1, rfl, Nat.le_succ _, fun hgo => ?_⟩
      rw [hgo s.polls (Nat.le_refl _) (Nat.lt_succ_self _)] at hstop
      cases hstop
    · obtain ⟨done, polls, hask, hle, hdone⟩ := ih { s with polls := s.polls + 1 }
      exact ⟨done, polls, hask, Nat.le_of_succ_le hle,
        fun hgo => hdone fun i hi => hgo i (Nat.le_of_succ_le hi)⟩

/-- The parts whose own meshes are made, with these meshes. -/
def constructs (es : List (Event α ω)) : List (Node α) :=
  es.filterMap fun
    | .construct n m => some { n with mesh := some m, state := .built }
    | _ => none

/-- What is made in a list of events and in another is what is made in both. -/
@[simp] theorem constructs_append (es es' : List (Event α ω)) :
    constructs (es ++ es') = constructs es ++ constructs es' :=
  List.filterMap_append

/-- What a build makes is among the parts of its result, and all children of it are built. -/
def Includes (parts : β → List (Node α)) (x : Logged α ω (Bool × β × Site α ω)) : Prop :=
  ∀ done z s, x.result = .ok (done, z, s) →
    ∀ q ∈ constructs x.log, q ∈ parts z ∧ ∀ c ∈ q.children, c.isBuilt = true

namespace Includes

variable {γ : Type} {parts : β → List (Node α)} {parts' : γ → List (Node α)}
  {x : Logged α ω (Bool × β × Site α ω)}

/-- Where nothing is done nothing is made. -/
theorem pure (done : Bool) (z : β) (s : Site α ω) : Includes parts ⟨[], .ok (done, z, s)⟩ :=
  fun _ _ _ _ _ hq => absurd hq List.not_mem_nil

/-- Events before a build in which nothing is made change nothing. -/
theorem after (h : Includes parts x) {es : List (Event α ω)} (hes : constructs es = []) :
    Includes parts (x.after es) := by
  intro done z s hx q hq
  rw [Logged.log_after, constructs_append, hes, List.nil_append] at hq
  exact h done z s hx q hq

/-- What follows a build makes what is in its own result, which has all parts of the result of the
    build. -/
theorem bind {f : Bool × β × Site α ω → Logged α ω (Bool × γ × Site α ω)} (h : Includes parts x)
    (hf : ∀ done z s, x.result = .ok (done, z, s) → Includes parts' (f (done, z, s)))
    (hparts : ∀ done z s done' z' s', x.result = .ok (done, z, s) →
      (f (done, z, s)).result = .ok (done', z', s') → parts z ⊆ parts' z') :
    Includes parts' (x >>= f) := by
  cases hx : x.result with
  | error e =>
    rw [Logged.bind_of_error hx]
    intro _ _ _ hr
    cases hr
  | ok r =>
    obtain ⟨done, z, s⟩ := r
    rw [Logged.bind_of_ok hx]
    intro done' z' s' hr q hq
    rw [Logged.log_after, constructs_append, List.mem_append] at hq
    rcases hq with hq | hq
    · obtain ⟨hmem, hbuilt⟩ := h done z s hx q hq
      exact ⟨hparts done z s done' z' s' hx hr hmem, hbuilt⟩
    · exact hf done z s hx done' z' s' hr q hq

end Includes

namespace Node

/-! ## What is drawn -/

/-- A part is drawn with another: it is that part, or is drawn with a child of it that is not used
    up in its mesh. -/
inductive Drawn : Node α → Node α → Prop
  | self (n : Node α) : Drawn n n
  | child {n c p : Node α} :
      n.kind.rendersChildren = true → c ∈ n.children → Drawn c p → Drawn n p

/-- What is drawn with a tree is a part of it. -/
theorem Drawn.mem_parts {n p : Node α} (h : n.Drawn p) : p ∈ n.parts := by
  induction h with
  | self n => exact n.self_mem_parts
  | child _ hc _ ih => exact mem_parts_of_mem_children hc ih

/-- A tree is finished if all that is drawn with it is built. -/
theorem finished_iff {n : Node α} : n.Finished ↔ ∀ p, n.Drawn p → p.isBuilt = true := by
  constructor
  · intro h p hp
    induction hp with
    | self n =>
      cases h with
      | intro hbuilt _ => exact hbuilt
    | child hrenders hc _ ih =>
      cases h with
      | intro _ hchildren => exact ih (hchildren hrenders _ hc)
  · intro h
    induction n using induction with
    | step n ih =>
      refine .intro (h n (.self n)) fun hrenders c hc => ?_
      exact ih c hc fun p hp => h p (.child hrenders hc hp)

variable [Scalar α] {probe : Nat → Bool}

/-- What holds of every part whose build comes to the end holds of all that a build of parts that
    comes to the end leaves. -/
theorem AllEnd.forall_mem {P : Node α → Prop} {ns ns' : List (Node α)} {s s' : Site α ω}
    {done : Bool} (h : AllEnd probe ns s done ns' s') (hdone : done = true)
    (hns : ∀ n ∈ ns, ∀ (s : Site α ω) n' s', n.build probe s = .ok (true, n', s') → P n') :
    ∀ n ∈ ns', P n := by
  induction h with
  | nil s => exact fun n hn => absurd hn List.not_mem_nil
  | stop _ => cases hdone
  | inside _ _ => cases hdone
  | next _ hn _ ih =>
    obtain ⟨hhead, htail⟩ := List.forall_mem_cons.1 hns
    exact List.forall_mem_cons.2 ⟨hhead _ _ _ hn, ih hdone htail⟩

/-- A build that comes to the end leaves the tree finished. -/
theorem finished_of_build {n n' : Node α} {s s' : Site α ω}
    (h : n.build probe s = .ok (true, n', s')) : n'.Finished := by
  induction n using induction generalizing s n' s' with
  | step n ih =>
    have hall {s s' : Site α ω} {cs : List (Node α)}
        (h : buildAll probe n.children s = .ok (true, cs, s')) : ∀ c ∈ cs, c.Finished :=
      (allEnd_of_buildAll h).forall_mem rfl fun c hc _ _ _ hb => ih c hc hb
    have hdrawn {r n' : Node α} {s s' : Site α ω} (hcs : r.children = n.children)
        (hbuilt : r.isBuilt = true) (h : DrawnEnds probe r s true n' s') : n'.Finished := by
      cases h with
      | plain hplain => exact .intro hbuilt fun h => absurd (hplain.symm.trans h) Bool.false_ne_true
      | drawn _ h => exact .intro hbuilt fun _ => hall (hcs ▸ h)
    cases ends_of_build h with
    | built hbuilt h => exact hdrawn rfl hbuilt h
    | @found _ _ _ m _ _ h =>
      exact hdrawn (r := { n with mesh := some m, state := .built }) rfl rfl h
    | finished _ _ hcs hfin =>
      cases hfin with
      | constructed _ _ => exact .intro rfl fun _ => hall hcs
      | plain _ => exact .intro rfl fun _ => hall hcs

/-! ## Builds that have nothing to do -/

/-- A build of a tree that is finished has nothing to do. -/
theorem idle_build {n : Node α} (h : n.Finished) (s : Site α ω) :
    Idle probe n s (n.build probe s) := by
  rw [build_of_finished h]
  exact idle_ask _ n s

/-! ## What is made on the way -/

/-- What builds of parts make is in their results if that holds of each. -/
theorem includes_loggedAll {ns : List (Node α)}
    (h : ∀ n ∈ ns, ∀ s : Site α ω, Includes parts (n.logged probe s)) (s : Site α ω) :
    Includes partsOfAll (loggedAll probe ns s) := by
  induction ns generalizing s with
  | nil =>
    rw [loggedAll_nil]
    exact .pure true [] s
  | cons n ns ih =>
    obtain ⟨hn, hns⟩ := List.forall_mem_cons.1 h
    rw [loggedAll_cons]
    split
    · intro _ _ _ _ q hq
      cases hq
    · refine Includes.after ((hn _).bind ?_ ?_) rfl
      · intro done n' s' _
        cases done with
        | false => exact .pure false _ s'
        | true =>
          refine (ih hns s').bind (fun done ns' s'' _ => .pure done _ s'') ?_
          intro done ns' s'' _ _ _ _ hr
          cases hr
          exact List.subset_append_right _ _
      · intro done n' s' _ ms _ _ hr
        cases done with
        | false =>
          cases hr
          exact List.subset_append_left _ _
        | true =>
          obtain ⟨⟨_, ns', _⟩, _, hr⟩ := bind_eq_ok_iff.1 ((Logged.result_bind _ _).symm.trans hr)
          cases hr
          exact List.subset_append_left _ _

section Children

variable {n : Node α} (hall : ∀ s : Site α ω, Includes partsOfAll (loggedAll probe n.children s))
include hall

/-- What the build of the drawn children makes is in the part. -/
theorem includes_loggedDrawn (s : Site α ω) : Includes parts (n.loggedDrawn probe s) := by
  rw [loggedDrawn]
  split
  · refine (hall s).bind (fun done cs s' _ => .pure done _ s') fun _ cs _ _ _ _ _ hr => ?_
    cases hr
    rw [parts_eq]
    exact List.subset_cons_self _ _
  · exact .pure true n s

/-- What the build of the children and of the mesh makes is in the part, if the children are built
    then. -/
theorem includes_loggedAnew (hbuilt : ∀ (s : Site α ω) cs s',
    (loggedAll probe n.children s).result = .ok (true, cs, s') → ∀ c ∈ cs, c.isBuilt = true)
    (s : Site α ω) : Includes parts (n.loggedAnew probe s) := by
  rw [loggedAnew]
  refine (hall s).bind ?_ ?_
  · intro done cs s' hcs
    cases done with
    | false => exact .pure false _ s'
    | true =>
      dsimp only
      rw [if_pos rfl, Site.loggedFinish]
      split
      · cases hm : Kind.construct n.kind cs with
        | error e =>
          intro _ _ _ hr
          cases hr
        | ok m =>
          intro _ _ _ hr q hq
          cases hr
          obtain rfl := List.mem_singleton.1 hq
          exact ⟨self_mem_parts _, hbuilt s cs s' hcs⟩
      · exact .pure true _ s'
  · intro done cs s' _ z' _ _ hr
    have hsub (state : BuildState) (mesh : Option (Mesh α)) :
        partsOfAll cs ⊆ parts { n with state, mesh, children := cs } := by
      rw [parts_eq]
      exact List.subset_cons_self _ _
    cases done with
    | false =>
      cases hr
      exact hsub .unbuilt n.mesh
    | true =>
      obtain ⟨⟨z, t⟩, hfin, hr⟩ := bind_eq_ok_iff.1 ((Logged.result_bind _ _).symm.trans hr)
      cases hr
      rw [result_loggedFinish] at hfin
      cases finishes_of_finish hfin with
      | constructed _ _ => exact hsub .built _
      | plain _ => exact hsub .built n.mesh

end Children

/-- What a build makes is in its result, and all children of it are built. -/
theorem includes_logged (n : Node α) (s : Site α ω) : Includes parts (n.logged probe s) := by
  induction n using induction generalizing s with
  | step n ih =>
    have hall (s : Site α ω) := includes_loggedAll ih s
    have hbuilt (s : Site α ω) (cs : List (Node α)) (s' : Site α ω)
        (hcs : (loggedAll probe n.children s).result = .ok (true, cs, s')) :
        ∀ c ∈ cs, c.isBuilt = true := by
      rw [result_loggedAll fun c _ => c.result_logged] at hcs
      exact (allEnd_of_buildAll hcs).forall_mem rfl fun _ _ _ _ _ hb =>
        finished_iff.1 (finished_of_build hb) _ (.self _)
    rw [logged_eq, loggedInside]
    refine Includes.after ?_ rfl
    split
    · exact includes_loggedDrawn hall s
    · refine Includes.after ?_ ?_
      · split
        · exact includes_loggedDrawn (n := { n with mesh := _, state := _ }) hall _
        · exact includes_loggedAnew hall hbuilt _
      · rw [lookups]
        split <;> rfl

/-- A build that comes to the end leaves everything built that is drawn, with a mesh if its kind has
    one. Each mesh that the build made is in the tree, above children that are built. Any build
    after it leaves the tree and the cache, whichever that is, as they are, and comes to the end if
    its probe lets it. -/
theorem complete_of_build [KeyDigest] {n n' : Node α} {s s' : Site α ω} (hn : n.Made)
    (h : n.build probe s = .ok (true, n', s')) :
    (∀ p, n'.Drawn p → p.isBuilt = true ∧ (p.kind.hasOwnMesh = true → p.mesh.isSome = true)) ∧
      ((n.logged probe s).result = n.build probe s ∧
        ∀ q ∈ constructs (n.logged probe s).log,
          q ∈ n'.parts ∧ ∀ c ∈ q.children, c.isBuilt = true) ∧
      ∀ (probe' : Nat → Bool) (t : Site α ω), Idle probe' n' t (n'.build probe' t) := by
  have hfin := finished_of_build h
  have hresult : (n.logged probe s).result = n.build probe s := n.result_logged s
  refine ⟨fun p hp => ?_, ⟨hresult, ?_⟩, fun probe' t => idle_build hfin t⟩
  · have hbuilt := finished_iff.1 hfin p hp
    have hrest := (hn.build h).rested p hp.mem_parts
    exact ⟨hbuilt, fun hown => hrest.isSome_mesh_iff.2 ⟨hbuilt, hown⟩⟩
  · exact n.includes_logged s true n' s' (hresult.trans h)

/-- A group of a union of a cube. -/
def unitedCube [KeyDigest] : Node Float :=
  (Node.new .group).withChildren [(Node.new (.combination .union)).withChildren [Node.new .cube]]

/-- The group was made. -/
theorem made_unitedCube [KeyDigest] : unitedCube.Made :=
  .withChildren (.new _) (List.forall_mem_singleton.2
    (.withChildren (.new _) (List.forall_mem_singleton.2 (.new _))))

section Mixing

attribute [local instance] KeyDigest.mixing

/-- A build of the group makes the cube and the union, and leaves nothing to do. -/
theorem complete_unitedCube : ∃ (n : Node Float) (s : Site Float Unit),
    unitedCube.build (fun _ => false) { cache := .new 100000 } = .ok (true, n, s) ∧
      (∀ p, n.Drawn p → p.isBuilt = true) ∧
      (constructs (unitedCube.logged (fun _ => false)
        ({ cache := .new 100000 } : Site Float Unit)).log).length = 2 ∧
      Idle (fun _ => false) n s (n.build (fun _ => false) s) := by
  obtain ⟨⟨n, s⟩, hrun⟩ : ∃ r, unitedCube.build (fun _ => false)
      ({ cache := .new 100000 } : Site Float Unit) = .ok (true, r) :=
    exists_of_done? (by decide +kernel)
  obtain ⟨hdrawn, _, hidle⟩ := complete_of_build made_unitedCube hrun
  exact ⟨n, s, hrun, fun p hp => (hdrawn p hp).1, by decide +kernel, hidle _ s⟩

end Mixing

end Node

end Solids
