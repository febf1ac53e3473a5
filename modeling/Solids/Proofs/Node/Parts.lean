import Mathlib.Data.List.Forall2
import Solids.Node

/-!
# The parts of a tree

A tree consists of the part at its root and of those below it (`Node.parts`,
`Node.descendants`). What holds of a part whenever it holds of its children holds of all parts
(`Node.induction`).

Building changes how far parts are built and which meshes they have, and nothing else: what is left
of a tree when these are forgotten (`Node.fresh`) is the tree as it was made.
-/

namespace Solids.Node

variable {α : Type}

/-- What holds of a part whenever it holds of its children holds of every part. -/
@[elab_as_elim]
theorem induction {motive : Node α → Prop}
    (step : ∀ n : Node α, (∀ c ∈ n.children, motive c) → motive n) (n : Node α) : motive n := by
  refine Node.rec (motive_2 := fun ns => ∀ n ∈ ns, motive n) ?_ ?_ ?_ n
  · intro kind transform material name span children key state mesh ih
    exact step _ ih
  · intro n hn
    cases hn
  · intro n ns hn hns
    exact List.forall_mem_cons.2 ⟨hn, hns⟩

/-! ## Parts -/

mutual

/-- The part and all below it. -/
def parts : Node α → List (Node α)
  | n@{ children, .. } => n :: partsOfAll children

/-- The parts of the trees of a list. -/
def partsOfAll : List (Node α) → List (Node α)
  | [] => []
  | n :: ns => n.parts ++ partsOfAll ns

end

/-- The parts below the one at the root. -/
def descendants (n : Node α) : List (Node α) := partsOfAll n.children

/-- A tree is its root and what is below. -/
theorem parts_eq (n : Node α) : n.parts = n :: n.descendants := by
  cases n
  rw [parts, descendants]

/-- The root is a part of the tree. -/
@[simp] theorem self_mem_parts (n : Node α) : n ∈ n.parts := by
  rw [parts_eq]
  exact List.mem_cons_self

/-- The parts of the trees of a list are those of one of them. -/
@[simp] theorem mem_partsOfAll {p : Node α} {ns : List (Node α)} :
    p ∈ partsOfAll ns ↔ ∃ n ∈ ns, p ∈ n.parts := by
  induction ns with
  | nil => simp [partsOfAll]
  | cons n ns ih => rw [partsOfAll, List.mem_append, ih, List.exists_mem_cons_iff]

/-- A part is the root or a part of a child. -/
theorem mem_parts {p n : Node α} : p ∈ n.parts ↔ p = n ∨ ∃ c ∈ n.children, p ∈ c.parts := by
  rw [parts_eq, List.mem_cons, descendants, mem_partsOfAll]

/-- The parts of a child are parts of the tree. -/
theorem mem_parts_of_mem_children {p c n : Node α} (hc : c ∈ n.children) (hp : p ∈ c.parts) :
    p ∈ n.parts :=
  mem_parts.2 (.inr ⟨c, hc, hp⟩)

/-- What holds of all parts holds of the root and of all parts of the children. -/
theorem forall_mem_parts {P : Node α → Prop} {n : Node α} :
    (∀ p ∈ n.parts, P p) ↔ P n ∧ ∀ c ∈ n.children, ∀ p ∈ c.parts, P p := by
  constructor
  · intro h
    exact ⟨h n n.self_mem_parts, fun c hc p hp => h p (mem_parts_of_mem_children hc hp)⟩
  · rintro ⟨hself, hchildren⟩ p hp
    rcases mem_parts.1 hp with rfl | ⟨c, hc, hp⟩
    · exact hself
    · exact hchildren c hc p hp

/-- The parts of a part are parts of the tree. -/
theorem mem_parts_trans {p q n : Node α} (hp : p ∈ q.parts) (hq : q ∈ n.parts) : p ∈ n.parts := by
  induction n using induction with
  | step n ih =>
    rcases mem_parts.1 hq with rfl | ⟨c, hc, hq⟩
    · exact hp
    · exact mem_parts_of_mem_children hc (ih c hc hq)

/-- What is below a part of the tree is a part of the tree. -/
theorem mem_parts_of_mem_descendants {p q n : Node α} (hp : p ∈ q.descendants) (hq : q ∈ n.parts) :
    p ∈ n.parts := by
  refine mem_parts_trans ?_ hq
  rw [parts_eq]
  exact List.mem_cons_of_mem _ hp

/-- A part below another has fewer parts. -/
theorem length_parts_lt {p n : Node α} (hp : p ∈ n.descendants) :
    p.parts.length < n.parts.length := by
  have hlist (ns : List (Node α)) (c : Node α) (hc : c ∈ ns) :
      c.parts.length ≤ (partsOfAll ns).length := by
    induction ns with
    | nil => cases hc
    | cons n ns ih =>
      rw [partsOfAll, List.length_append]
      rcases List.mem_cons.1 hc with rfl | hc
      · exact Nat.le_add_right _ _
      · exact Nat.le_add_left_of_le (ih hc)
  induction n using induction with
  | step n ih =>
    obtain ⟨c, hc, hp⟩ := mem_partsOfAll.1 hp
    have hlt : c.parts.length < n.parts.length := by
      rw [parts_eq n, List.length_cons]
      exact Nat.lt_succ_of_le (hlist _ c hc)
    rw [parts_eq, List.mem_cons] at hp
    rcases hp with rfl | hp
    · exact hlt
    · exact Nat.lt_trans (ih c hc hp) hlt

/-! ## Trees as they were made -/

mutual

/-- The tree with no part built. -/
def fresh : Node α → Node α
  | n@{ children, .. } =>
    { n with children := freshAll children, state := .unbuilt, mesh := none }

/-- The trees of a list with no part built. -/
def freshAll : List (Node α) → List (Node α)
  | [] => []
  | n :: ns => n.fresh :: freshAll ns

end

/-- To unbuild the trees of a list is to unbuild each. -/
theorem freshAll_eq (ns : List (Node α)) : freshAll ns = ns.map fresh := by
  induction ns with
  | nil => rfl
  | cons n ns ih => rw [freshAll, ih, List.map_cons]

/-- To unbuild a tree is to unbuild the children and the root. -/
theorem fresh_eq (n : Node α) :
    n.fresh = { n with children := n.children.map fresh, state := .unbuilt, mesh := none } := by
  cases n
  rw [fresh, freshAll_eq]

section Fresh

variable (n : Node α)

@[simp] theorem fresh_kind : n.fresh.kind = n.kind := by rw [fresh_eq]

@[simp] theorem fresh_transform : n.fresh.transform = n.transform := by rw [fresh_eq]

@[simp] theorem fresh_material : n.fresh.material = n.material := by rw [fresh_eq]

@[simp] theorem fresh_children : n.fresh.children = n.children.map fresh := by rw [fresh_eq]

@[simp] theorem fresh_key : n.fresh.key = n.key := by rw [fresh_eq]

/-- Trees that differ in how far the root is built are the same when that is forgotten. -/
@[simp] theorem fresh_update (state : BuildState) (mesh : Option (Mesh α)) :
    fresh { n with state, mesh } = n.fresh := by rw [fresh_eq, fresh_eq]

end Fresh

/-- Trees with children that are the same once unbuilt are themselves. -/
theorem fresh_with_children {n : Node α} {ns : List (Node α)}
    (h : ns.map fresh = n.children.map fresh) : fresh { n with children := ns } = n.fresh := by
  rw [fresh_eq, fresh_eq, h]

/-- The parts of an unbuilt tree are the unbuilt parts. -/
theorem parts_fresh (n : Node α) : n.fresh.parts = n.parts.map fresh := by
  have hlist (ns : List (Node α)) (h : ∀ n ∈ ns, n.fresh.parts = n.parts.map fresh) :
      partsOfAll (ns.map fresh) = (partsOfAll ns).map fresh := by
    induction ns with
    | nil => rfl
    | cons n ns ih =>
      obtain ⟨hn, hns⟩ := List.forall_mem_cons.1 h
      rw [List.map_cons, partsOfAll, partsOfAll, hn, ih hns, List.map_append]
  induction n using induction with
  | step n ih =>
    rw [parts_eq, parts_eq, List.map_cons, descendants, descendants, fresh_children, hlist _ ih]

end Solids.Node
