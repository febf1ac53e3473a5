import Solids.Proofs.Build.Alone
import Solids.Proofs.Build.Frame

/-!
# How a build ends

A build that has a result came to it in one of a few ways. For a part they are `Node.Ends`, in terms
of the build of its children; for a list of parts they are `Node.AllEnd`, in terms of the builds of
its members. All that is proved of results goes through these cases (`Node.ends_of_build`,
`Node.allEnd_of_buildAll`).
-/

namespace Solids.Node

variable {α ω : Type} [Scalar α] {probe : Nat → Bool}

/-! ## A part -/

section Cases

variable {n : Node α} {s : Site α ω}

/-- A build of a built part is that of the children drawn beside it. -/
theorem build_of_built (h : n.isBuilt = true) : n.build probe s = n.buildDrawn probe s := by
  rw [build_eq, if_pos h]

/-- A build of a part that is found is that of the children drawn beside it. -/
theorem build_of_found {m : Mesh α} (h : n.isBuilt = false) (hm : (s.lookup n).1 = some m) :
    n.build probe s =
      buildDrawn probe { n with mesh := some m, state := .built } (s.lookup n).2 := by
  rw [build_eq, h, if_neg Bool.false_ne_true, hm, Option.isSome_some, if_pos rfl]

/-- A build of a part that is not found is that of its children and of its mesh. -/
theorem build_of_missed (h : n.isBuilt = false) (hnone : (s.lookup n).1 = none) :
    n.build probe s = n.buildAnew probe (s.lookup n).2 := by
  rw [build_eq, h, if_neg Bool.false_ne_true, hnone, Option.isSome_none, if_neg Bool.false_ne_true]

end Cases

/-- What becomes of a part whose children are built. -/
inductive Finishes (n : Node α) (s : Site α ω) : Node α → Site α ω → Prop
  /-- Its own mesh is made and stored. -/
  | constructed {m : Mesh α} : n.kind.hasOwnMesh = true → n.kind.construct n.children = .ok m →
      Finishes n s { n with mesh := some m, state := .built }
        { s with cache := s.cache.store n.key m }
  /-- Its kind has no mesh. -/
  | plain : n.kind.hasOwnMesh = false → Finishes n s { n with state := .built } s

/-- How the build ends of the children that are drawn beside a part. -/
inductive DrawnEnds (probe : Nat → Bool) (n : Node α) (s : Site α ω) :
    Bool → Node α → Site α ω → Prop
  /-- Nothing is drawn beside it. -/
  | plain : n.kind.rendersChildren = false → DrawnEnds probe n s true n s
  /-- The children were built as far as they went. -/
  | drawn {s' : Site α ω} {done : Bool} {cs : List (Node α)} : n.kind.rendersChildren = true →
      buildAll probe n.children s = .ok (done, cs, s') →
      DrawnEnds probe n s done { n with children := cs } s'

/-- How the build of a part ends. -/
inductive Ends (probe : Nat → Bool) (n : Node α) (s : Site α ω) : Bool → Node α → Site α ω → Prop
  /-- The part is built. -/
  | built {n' : Node α} {s' : Site α ω} {done : Bool} : n.isBuilt = true →
      DrawnEnds probe n s done n' s' → Ends probe n s done n' s'
  /-- The part's mesh was in the cache. -/
  | found {n' : Node α} {s' : Site α ω} {done : Bool} {m : Mesh α} : n.isBuilt = false →
      (s.lookup n).1 = some m →
      DrawnEnds probe { n with mesh := some m, state := .built } (s.lookup n).2 done n' s' →
      Ends probe n s done n' s'
  /-- The build of the children was stopped. -/
  | stopped {s' : Site α ω} {cs : List (Node α)} : n.isBuilt = false → (s.lookup n).1 = none →
      buildAll probe n.children (s.lookup n).2 = .ok (false, cs, s') →
      Ends probe n s false { n with state := .unbuilt, children := cs } s'
  /-- The children were built, and then the part. -/
  | finished {n' : Node α} {s' s'' : Site α ω} {cs : List (Node α)} : n.isBuilt = false →
      (s.lookup n).1 = none → buildAll probe n.children (s.lookup n).2 = .ok (true, cs, s') →
      Finishes { n with state := .building, children := cs } s' n' s'' →
      Ends probe n s true n' s''

/-- A part that is finished is finished in one of these ways. -/
theorem finishes_of_finish {n n' : Node α} {s s' : Site α ω} (h : s.finish n = .ok (n', s')) :
    n.Finishes s n' s' := by
  rw [Site.finish] at h
  split at h
  · next hown =>
    obtain ⟨m, hm, h⟩ := bind_eq_ok_iff.1 h
    cases h
    exact .constructed hown hm
  · next hplain =>
    cases h
    exact .plain (Bool.not_eq_true _ ▸ hplain)

/-- The build of the drawn children ends in one of these ways. -/
theorem drawnEnds_of_buildDrawn {n n' : Node α} {s s' : Site α ω} {done : Bool}
    (h : n.buildDrawn probe s = .ok (done, n', s')) : DrawnEnds probe n s done n' s' := by
  rw [buildDrawn] at h
  split at h
  · next hrenders =>
    obtain ⟨⟨done, cs, s'⟩, hcs, h⟩ := bind_eq_ok_iff.1 h
    cases h
    exact .drawn hrenders hcs
  · next hplain =>
    cases h
    exact .plain (Bool.not_eq_true _ ▸ hplain)

/-- A build that has a result ends in one of these ways. -/
theorem ends_of_build {n n' : Node α} {s s' : Site α ω} {done : Bool}
    (h : n.build probe s = .ok (done, n', s')) : Ends probe n s done n' s' := by
  rw [build_eq] at h
  split_ifs at h with hbuilt hfound
  · exact .built hbuilt (drawnEnds_of_buildDrawn h)
  · rw [Bool.not_eq_true] at hbuilt
    obtain ⟨m, hm⟩ := Option.isSome_iff_exists.1 hfound
    rw [hm] at h
    exact .found hbuilt hm (drawnEnds_of_buildDrawn h)
  · rw [Bool.not_eq_true] at hbuilt
    rw [Bool.not_eq_true, Option.isSome_eq_false_iff, Option.isNone_iff_eq_none] at hfound
    obtain ⟨⟨done, cs, s'⟩, hcs, h⟩ := bind_eq_ok_iff.1 h
    cases done with
    | false =>
      cases h
      exact .stopped hbuilt hfound hcs
    | true =>
      obtain ⟨⟨n', s''⟩, hfinish, h⟩ := bind_eq_ok_iff.1 h
      cases h
      exact .finished hbuilt hfound hcs (finishes_of_finish hfinish)

/-! ## A list of parts -/

/-- How the build of a list of parts ends. -/
inductive AllEnd (probe : Nat → Bool) :
    List (Node α) → Site α ω → Bool → List (Node α) → Site α ω → Prop
  /-- All parts are done. -/
  | nil (s : Site α ω) : AllEnd probe [] s true [] s
  /-- The probe stopped the build before a part. -/
  | stop {n : Node α} {ns : List (Node α)} {s : Site α ω} : probe s.polls = true →
      AllEnd probe (n :: ns) s false (n :: ns) { s with polls := s.polls + 1 }
  /-- The build was stopped below a part. -/
  | inside {n n' : Node α} {ns : List (Node α)} {s s' : Site α ω} : probe s.polls = false →
      n.build probe { s with polls := s.polls + 1 } = .ok (false, n', s') →
      AllEnd probe (n :: ns) s false (n' :: ns) s'
  /-- A part is done, and the build went on to the others. -/
  | next {n n' : Node α} {ns ns' : List (Node α)} {s s' s'' : Site α ω} {done : Bool} :
      probe s.polls = false →
      n.build probe { s with polls := s.polls + 1 } = .ok (true, n', s') →
      AllEnd probe ns s' done ns' s'' → AllEnd probe (n :: ns) s done (n' :: ns') s''

/-- A build of parts that has a result ends in one of these ways. -/
theorem allEnd_of_buildAll {ns ns' : List (Node α)} {s s' : Site α ω} {done : Bool}
    (h : buildAll probe ns s = .ok (done, ns', s')) : AllEnd probe ns s done ns' s' := by
  induction ns generalizing s done ns' s' with
  | nil =>
    rw [buildAll] at h
    cases h
    exact .nil s
  | cons n ns ih =>
    rw [buildAll] at h
    dsimp only at h
    split at h
    · next hstop =>
      cases h
      exact .stop hstop
    · next hgo =>
      rw [Bool.not_eq_true] at hgo
      obtain ⟨⟨done', n', s₁⟩, hn, h⟩ := bind_eq_ok_iff.1 h
      cases done' with
      | false =>
        cases h
        exact .inside hgo hn
      | true =>
        obtain ⟨⟨done', ns', s₂⟩, hns, h⟩ := bind_eq_ok_iff.1 h
        cases h
        exact .next hgo hn (ih hns)

/-- What is between a part and what its build made of it, and between a part and itself, is between
    the parts of a list and those that they became. -/
theorem AllEnd.forall₂ {R : Node α → Node α → Prop} (hrefl : ∀ n, R n n) {ns ns' : List (Node α)}
    {s s' : Site α ω} {done : Bool} (h : AllEnd probe ns s done ns' s')
    (hns : ∀ n ∈ ns, ∀ (s : Site α ω) done n' s', n.build probe s = .ok (done, n', s') → R n n') :
    List.Forall₂ R ns ns' := by
  have hsame (ns : List (Node α)) : List.Forall₂ R ns ns := List.forall₂_same.2 fun n _ => hrefl n
  induction h with
  | nil s => exact .nil
  | stop _ => exact hsame _
  | inside _ hn => exact .cons (hns _ List.mem_cons_self _ _ _ _ hn) (hsame _)
  | next _ hn _ ih =>
    obtain ⟨hhead, htail⟩ := List.forall_mem_cons.1 hns
    exact .cons (hhead _ _ _ _ hn) (ih htail)

/-- What holds of all parts of a list, and is kept by the build of each, holds of all that the build
    of the list leaves. -/
theorem AllEnd.keeps {P : Node α → Prop} {ns ns' : List (Node α)} {s s' : Site α ω} {done : Bool}
    (h : AllEnd probe ns s done ns' s') (hns : ∀ n ∈ ns, P n)
    (hbuild : ∀ n ∈ ns, ∀ (s : Site α ω) done n' s', n.build probe s = .ok (done, n', s') →
      P n → P n') : ∀ n ∈ ns', P n := by
  have hrel : List.Forall₂ (fun n n' => P n → P n') ns ns' := h.forall₂ (fun _ => id) hbuild
  intro n' hn'
  obtain ⟨n, hn, hkeep⟩ := exists_mem_of_forall₂ hrel hn'
  exact hkeep (hns n hn)

/-- What the builds of parts keep of the cache, the build of their list keeps. -/
theorem AllEnd.cache {I : Cache α ω → Prop} {ns ns' : List (Node α)} {s s' : Site α ω} {done : Bool}
    (h : AllEnd probe ns s done ns' s') (hs : I s.cache)
    (hns : ∀ n ∈ ns, ∀ (s : Site α ω) done n' s', n.build probe s = .ok (done, n', s') →
      I s.cache → I s'.cache) : I s'.cache := by
  induction h with
  | nil s => exact hs
  | stop _ => exact hs
  | inside _ hn => exact hns _ List.mem_cons_self _ _ _ _ hn hs
  | next _ hn _ ih =>
    obtain ⟨hhead, htail⟩ := List.forall_mem_cons.1 hns
    exact ih (hhead _ _ _ _ hn hs) htail

end Solids.Node
