import Solids.Proofs.Key.Made

/-!
# Keys tell trees apart

Two trees are *alike* if their parts are, one by one: of one sort with parameters that are alike,
of materials of one identity, and in transforms that are alike (`Node.Alike`). Names, places in a
text, how far parts are built and the meshes they were given do not matter.

As long as the digest confuses none of the parts (`CollisionFree`), trees have one key exactly if
they are alike (`CollisionFree.key_eq_iff_alike`). Since trees that are alike have as many parts,
none has the key of a tree below its root.
-/

namespace Solids.Node

variable {α : Type} [Scalar α]

/-! ## Trees that are alike -/

mutual

/-- The trees are the same with every number taken for its pattern, whatever their names, their
    places in a text, and how far they are built. -/
def Alike : Node α → Node α → Prop
  | { kind, transform, material, children, .. }, n =>
    kind.Alike n.kind ∧ material.identity = n.material.identity ∧ transform.Alike n.transform ∧
      AllAlike children n.children

/-- The trees of two lists are alike, one by one. -/
def AllAlike : List (Node α) → List (Node α) → Prop
  | [], ms => ms = []
  | n :: ns, ms => ∃ m ms', ms = m :: ms' ∧ n.Alike m ∧ AllAlike ns ms'

end

/-- Lists of trees are alike if the trees are, one by one. -/
theorem allAlike_iff {ns ms : List (Node α)} : AllAlike ns ms ↔ List.Forall₂ Alike ns ms := by
  induction ns generalizing ms with
  | nil => rw [AllAlike, List.forall₂_nil_left_iff]
  | cons n ns ih =>
    rw [AllAlike, List.forall₂_cons_left_iff]
    simp only [ih]
    constructor
    · rintro ⟨m, ms', rfl, hn, hns⟩
      exact ⟨m, ms', hn, hns, rfl⟩
    · rintro ⟨m, ms', hn, hns, rfl⟩
      exact ⟨m, ms', rfl, hn, hns⟩

/-- Trees are alike if their roots are and their children are, one by one. -/
theorem alike_iff {n m : Node α} :
    n.Alike m ↔ n.kind.Alike m.kind ∧ n.material.identity = m.material.identity ∧
      n.transform.Alike m.transform ∧ List.Forall₂ Alike n.children m.children := by
  cases n
  rw [Alike, allAlike_iff]

/-- What holds of two roots whenever they are alike and it holds of their children, one by one,
    holds of all trees that are alike. -/
theorem alike_induction {motive : Node α → Node α → Prop}
    (step : ∀ n m : Node α, n.kind.Alike m.kind → List.Forall₂ motive n.children m.children →
      motive n m) {n m : Node α} (h : n.Alike m) : motive n m := by
  induction n using induction generalizing m with
  | step n ih =>
    obtain ⟨hkind, _, _, hchildren⟩ := alike_iff.1 h
    have hboth := (List.forall₂_and_left _ _).2 ⟨fun c hc m => ih c hc (m := m), hchildren⟩
    exact step n m hkind (hboth.imp fun c m hc => hc.1 m hc.2)

/-- Trees that are alike have as many parts. -/
theorem Alike.length_parts_eq {n m : Node α} (h : n.Alike m) :
    n.parts.length = m.parts.length := by
  have hlist {ns ms : List (Node α)}
      (h : List.Forall₂ (fun n m => n.parts.length = m.parts.length) ns ms) :
      (partsOfAll ns).length = (partsOfAll ms).length := by
    induction h with
    | nil => rfl
    | cons hn _ ih => rw [partsOfAll, partsOfAll, List.length_append, List.length_append, hn, ih]
  refine alike_induction (motive := fun n m => n.parts.length = m.parts.length)
    (fun n m _ hchildren => ?_) h
  rw [parts_eq, parts_eq, List.length_cons, List.length_cons, descendants, descendants,
    hlist hchildren]

/-! ## Keys -/

section Keys

variable [KeyDigest]

/-- The digest does not confuse two of the parts: only the same bytes give the same key. -/
def CollisionFree (ps : List (Node α)) : Prop :=
  ∀ p ∈ ps, ∀ q ∈ ps, KeyDigest.digest p.fed = KeyDigest.digest q.fed → p.fed = q.fed

instance (ps : List (Node α)) : Decidable (CollisionFree ps) :=
  inferInstanceAs (Decidable (∀ p ∈ ps, ∀ q ∈ ps,
    KeyDigest.digest p.fed = KeyDigest.digest q.fed → p.fed = q.fed))

/-- The tree is well-keyed, its lists are countable, and its parts are among the given ones. -/
structure Within (ps : List (Node α)) (n : Node α) : Prop where
  wellKeyed : n.WellKeyed
  fits : n.Fits
  mem_of_mem_parts : ∀ p ∈ n.parts, p ∈ ps

namespace Within

variable {ps : List (Node α)} {n : Node α} (h : n.Within ps)
include h

/-- The root is among the given parts. -/
theorem mem : n ∈ ps := h.mem_of_mem_parts n n.self_mem_parts

/-- What holds of a tree holds of the trees below its root. -/
theorem part {p : Node α} (hp : p ∈ n.parts) : p.Within ps where
  wellKeyed q hq := h.wellKeyed q (mem_parts_trans hq hp)
  fits q hq := h.fits q (mem_parts_trans hq hp)
  mem_of_mem_parts q hq := h.mem_of_mem_parts q (mem_parts_trans hq hp)

/-- What holds of a tree holds of the children. -/
theorem child {c : Node α} (hc : c ∈ n.children) : c.Within ps :=
  h.part (mem_parts_of_mem_children hc c.self_mem_parts)

end Within

/-- The parts of trees that were made are among themselves. -/
theorem within_partsOfAll {ns : List (Node α)} (hmade : ∀ n ∈ ns, n.Made)
    (hfits : ∀ n ∈ ns, n.Fits) {p : Node α} (hp : p ∈ partsOfAll ns) :
    p.Within (partsOfAll ns) := by
  obtain ⟨n, hn, hp⟩ := mem_partsOfAll.1 hp
  have hroot : n.Within (partsOfAll ns) :=
    ⟨(hmade n hn).wellKeyed, hfits n hn, fun p hp => mem_partsOfAll.2 ⟨n, hn, hp⟩⟩
  exact hroot.part hp

namespace CollisionFree

variable {ps : List (Node α)} (h : CollisionFree ps)
include h

/-- Among parts that the digest does not confuse, the key tells what is like the part itself and
    the keys of the children. -/
theorem key_eq_iff {n m : Node α} (hn : n.Within ps) (hm : m.Within ps) :
    n.key = m.key ↔ n.kind.Alike m.kind ∧ n.material.identity = m.material.identity ∧
      n.transform.Alike m.transform ∧ n.children.map (·.key) = m.children.map (·.key) := by
  have hfed : n.key = m.key ↔ n.fed = m.fed := by
    rw [hn.wellKeyed n n.self_mem_parts, hm.wellKeyed m m.self_mem_parts, computedKey,
      computedKey, CacheKey.compute, CacheKey.compute, CacheKey.mk.injEq]
    exact ⟨h n hn.mem m hm.mem, congrArg _⟩
  rw [hfed, fed, fed,
    CacheKey.fed_eq_iff (hn.fits n n.self_mem_parts) (hm.fits m m.self_mem_parts)]

/-- Trees whose parts the digest does not confuse have one key exactly if they are alike. -/
theorem key_eq_iff_alike {n m : Node α} (hn : n.Within ps) (hm : m.Within ps) :
    n.key = m.key ↔ n.Alike m := by
  induction n using induction generalizing m with
  | step n ih =>
    rw [h.key_eq_iff hn hm, alike_iff]
    refine and_congr_right fun _ => and_congr_right fun _ => and_congr_right fun _ => ?_
    rw [← List.forall₂_eq_eq_eq, List.forall₂_map_left_iff, List.forall₂_map_right_iff,
      List.forall₂_iff_zip, List.forall₂_iff_zip]
    refine and_congr_right fun _ => forall₂_congr fun c d => forall_congr' fun hcd => ?_
    obtain ⟨hc, hd⟩ := List.of_mem_zip hcd
    exact ih c hc (hn.child hc) (hm.child hd)

/-- A tree whose parts the digest does not confuse has another key than those below its root. -/
theorem key_ne_of_mem_descendants {n p : Node α} (hn : n.Within ps) (hp : p ∈ n.descendants) :
    p.key ≠ n.key := by
  intro hkey
  have hpart : p ∈ n.parts := mem_parts_of_mem_descendants hp n.self_mem_parts
  have halike := (h.key_eq_iff_alike (hn.part hpart) hn).1 hkey
  exact absurd halike.length_parts_eq (Nat.ne_of_lt (length_parts_lt hp))

end CollisionFree

/-- The keys of trees, however they were made, are the same exactly if the trees are alike, as long
    as the digest does not confuse their parts. They are alike if the roots are of one sort with
    parameters that are alike, of materials that are `==`, and in transforms that are alike, and
    their children have the same keys in order. No part has the key of a part below it. What keys
    are digested from says all this by itself: two kinds, materials, transforms and lists of
    children's keys are written in the same bytes exactly if they are alike. -/
theorem keys_unambiguous {n m : Node α} (hn : n.Made) (hm : m.Made) (hnfits : n.Fits)
    (hmfits : m.Fits) (hfree : CollisionFree (n.parts ++ m.parts)) :
    (n.key = m.key ↔ n.Alike m) ∧
      (n.Alike m ↔ n.kind.Alike m.kind ∧ (n.material == m.material) = true ∧
        n.transform.Alike m.transform ∧ n.children.map (·.key) = m.children.map (·.key)) ∧
      (∀ p ∈ n.parts ++ m.parts, ∀ q ∈ p.descendants, q.key ≠ p.key) ∧
      ∀ (k k' : Kind α) (a a' : Material) (t t' : Transform α) (ks ks' : List CacheKey),
        k.Fits → k'.Fits →
        (CacheKey.fed k a t ks = CacheKey.fed k' a' t' ks' ↔
          k.Alike k' ∧ (a == a') = true ∧ t.Alike t' ∧ ks = ks') := by
  have hnps : n.Within (n.parts ++ m.parts) :=
    ⟨hn.wellKeyed, hnfits, fun p hp => List.mem_append_left _ hp⟩
  have hmps : m.Within (n.parts ++ m.parts) :=
    ⟨hm.wellKeyed, hmfits, fun p hp => List.mem_append_right _ hp⟩
  refine ⟨hfree.key_eq_iff_alike hnps hmps, ?_, fun p hp q hq => ?_, ?_⟩
  · rw [← hfree.key_eq_iff_alike hnps hmps, hfree.key_eq_iff hnps hmps, Material.beq_iff]
  · rcases List.mem_append.1 hp with hp | hp
    · exact hfree.key_ne_of_mem_descendants (hnps.part hp) hq
    · exact hfree.key_ne_of_mem_descendants (hmps.part hp) hq
  · intro k k' a a' t t' ks ks' hk hk'
    rw [CacheKey.fed_eq_iff hk hk', Material.beq_iff]

end Keys

/-! ## Two groups of a cube -/

/-- A cube in a group that was not moved. -/
def groupedCube [KeyDigest] : Node Float :=
  (Node.new .group).withChildren [Node.new .cube]

/-- The same, where the cube has a name and the group was moved by a negative zero. -/
def groupedBox [KeyDigest] : Node Float :=
  ((Node.new .group).withTransform { Transform.identity with
    offset := ⟨-0.0, 0.0, 0.0⟩ }).withChildren [(Node.new .cube).withName "box"]

section Mixing

local instance : KeyDigest := .mixing

/-- The two groups of a cube have one key, as they are alike, and their cubes another. -/
theorem key_groupedCube :
    groupedCube.key = groupedBox.key ∧
      (groupedCube.key = groupedBox.key ↔ groupedCube.Alike groupedBox) ∧
      ∀ p ∈ groupedCube.parts ++ groupedBox.parts, ∀ q ∈ p.descendants, q.key ≠ p.key := by
  have hcube : groupedCube.Made :=
    .withChildren (.new _) (List.forall_mem_singleton.2 (.new _))
  have hbox : groupedBox.Made :=
    .withChildren (.withTransform _ (.new _)) (List.forall_mem_singleton.2 (.withName _ (.new _)))
  have hfree : CollisionFree (groupedCube.parts ++ groupedBox.parts) := by decide +kernel
  obtain ⟨halike, _, hbelow, _⟩ :=
    keys_unambiguous hcube hbox (by decide +kernel) (by decide +kernel) hfree
  exact ⟨by decide +kernel, halike, hbelow⟩

end Mixing

end Solids.Node
