import Solids.Proofs.Build.Frame
import Solids.Proofs.Key.Alike
import Solids.Record.Node

/-!
# Parts that were made

Trees come about in few ways (`Node.Made`): a part is made of a kind or read from a record, is
changed and changed again, and is built. In all of them every part has the key that follows from
it and from its children's keys (`Node.Made.wellKeyed`).
-/

namespace Solids

/-- Every element of a list that was read is read from one of the records. -/
theorem exists_of_mem_mapM {β γ : Type} {read : β → Option γ} {xs : List β} {ys : List γ}
    (h : xs.mapM read = some ys) {y : γ} (hy : y ∈ ys) : ∃ x ∈ xs, read x = some y := by
  induction xs generalizing ys with
  | nil =>
    cases h
    cases hy
  | cons x xs ih =>
    rw [List.mapM_cons] at h
    obtain ⟨y', hy', h⟩ := Option.bind_eq_some_iff.1 h
    obtain ⟨ys', hys', h⟩ := Option.bind_eq_some_iff.1 h
    cases h
    rcases List.mem_cons.1 hy with rfl | hy
    · exact ⟨x, List.mem_cons_self, hy'⟩
    · obtain ⟨x', hx', hread⟩ := ih hys' hy
      exact ⟨x', List.mem_cons_of_mem _ hx', hread⟩

namespace Node

variable {α : Type} [Scalar α] [KeyDigest]

/-- The tree was made in one of the ways there are, changed, and built in some number of steps. -/
inductive Made : Node α → Prop
  | new (kind : Kind α) : Made (Node.new kind)
  /-- A part that was read from a record, with parts that were. -/
  | read (kind : Kind α) (transform : Transform α) (material : Material) (name : Option String)
      (span : Option Span) {children : List (Node α)} :
      (∀ c ∈ children, Made c) → Made (make kind transform material name span children)
  | withTransform {n : Node α} (transform : Transform α) : Made n → Made (n.withTransform transform)
  | withMaterial {n : Node α} (material : Material) : Made n → Made (n.withMaterial material)
  | withChildren {n : Node α} {children : List (Node α)} :
      Made n → (∀ c ∈ children, Made c) → Made (n.withChildren children)
  | withName {n : Node α} (name : String) : Made n → Made (n.withName name)
  | withSpan {n : Node α} (span : Span) : Made n → Made (n.withSpan span)
  /-- A child taken out of a tree. -/
  | child {n c : Node α} : Made n → c ∈ n.children → Made c
  /-- A tree after a build, whether that came to the end or not. -/
  | build {ω : Type} {n n' : Node α} {s s' : Site α ω} {probe : Nat → Bool} {done : Bool} :
      Made n → n.build probe s = .ok (done, n', s') → Made n'

/-- The bytes that the part's key is digested from. -/
def fed (n : Node α) : List UInt8 :=
  CacheKey.fed n.kind n.material n.transform (n.children.map (·.key))

/-- Every part of the tree has the key that follows from it. -/
def WellKeyed (n : Node α) : Prop := ∀ p ∈ n.parts, p.key = p.computedKey

/-- A tree is well-keyed if its root is and its children are. -/
theorem wellKeyed_iff {n : Node α} :
    n.WellKeyed ↔ n.key = n.computedKey ∧ ∀ c ∈ n.children, c.WellKeyed :=
  forall_mem_parts

/-- A part's key follows from what it is fresh. -/
theorem computedKey_fresh (n : Node α) : n.fresh.computedKey = n.computedKey := by
  have hkeys : (n.children.map fresh).map (·.key) = n.children.map (·.key) := by
    rw [List.map_map]
    exact List.map_congr_left fun c _ => c.fresh_key
  rw [computedKey, computedKey, fresh_kind, fresh_material, fresh_transform, fresh_children, hkeys]

/-- How far the parts are built has nothing to do with keys. -/
theorem wellKeyed_fresh {n : Node α} : n.fresh.WellKeyed ↔ n.WellKeyed := by
  rw [WellKeyed, parts_fresh, List.forall_mem_map]
  exact forall₂_congr fun p _ => by rw [fresh_key, computedKey_fresh]

/-- A part with its key renewed is well-keyed if its children are. -/
theorem wellKeyed_rekey {n : Node α} (h : ∀ c ∈ n.children, c.WellKeyed) :
    n.rekey.WellKeyed := by
  rw [rekey, wellKeyed_iff]
  split
  · next hkey => exact ⟨hkey.symm, h⟩
  · exact ⟨rfl, h⟩

/-- However a tree was made, it is well-keyed. -/
theorem Made.wellKeyed {n : Node α} (h : n.Made) : n.WellKeyed := by
  induction h with
  | new kind => exact wellKeyed_iff.2 ⟨rfl, fun c hc => absurd hc List.not_mem_nil⟩
  | read kind transform material name span _ ih => exact wellKeyed_iff.2 ⟨rfl, ih⟩
  | withTransform transform _ ih => exact wellKeyed_rekey (wellKeyed_iff.1 ih).2
  | withMaterial material _ ih => exact wellKeyed_rekey (wellKeyed_iff.1 ih).2
  | withChildren _ _ _ ih => exact wellKeyed_rekey ih
  | withName name _ ih =>
    obtain ⟨hkey, hchildren⟩ := wellKeyed_iff.1 ih
    exact wellKeyed_iff.2 ⟨hkey, hchildren⟩
  | withSpan span _ ih =>
    obtain ⟨hkey, hchildren⟩ := wellKeyed_iff.1 ih
    exact wellKeyed_iff.2 ⟨hkey, hchildren⟩
  | child _ hc ih => exact (wellKeyed_iff.1 ih).2 _ hc
  | build _ hbuild ih =>
    rw [← wellKeyed_fresh, ((build_fresh _ _).of_ok hbuild :)]
    exact wellKeyed_fresh.2 ih

/-- All lists among the parameters of the tree's parts are countable. -/
def Fits (n : Node α) : Prop := ∀ p ∈ n.parts, p.kind.Fits

instance (n : Node α) : Decidable n.Fits :=
  inferInstanceAs (Decidable (∀ p ∈ n.parts, p.kind.Fits))

/-- What holds of a part that is made whenever it holds of the children holds of every tree that is
    read from a record. -/
theorem ofJson?_induction {P : Node Float → Prop}
    (hmake : ∀ kind transform material name span children, (∀ c ∈ children, P c) →
      P (make kind transform material name span children))
    {j : Json} {n : Node Float} (h : ofJson? j = some n) : P n := by
  induction j using ofJson?.induct generalizing n with
  | case1 j hrecord ih =>
    rw [ofJson?, if_pos hrecord] at h
    simp only [Option.bind_eq_bind, Option.bind_eq_some_iff, Option.pure_def] at h
    obtain ⟨kind, _, transform, _, material, _, name, _, span, _, h⟩ := h
    split at h
    · cases h
      exact hmake _ _ _ _ _ _ fun c hc => absurd hc List.not_mem_nil
    · next xs hfield =>
      obtain ⟨children, hchildren, hn⟩ := Option.bind_eq_some_iff.1 h
      cases hn
      refine hmake _ _ _ _ _ _ fun c hc => ?_
      obtain ⟨x, _, hx⟩ := exists_of_mem_mapM hchildren hc
      exact ih xs hfield x hx
    · cases h
  | case2 j hrecord =>
    rw [ofJson?, if_neg hrecord] at h
    cases h

/-- What is read from a record was made. -/
theorem made_of_ofJson? {j : Json} {n : Node Float} (h : ofJson? j = some n) : n.Made :=
  ofJson?_induction (fun kind transform material name span _ hcs =>
    .read kind transform material name span hcs) h

end Node

end Solids
