import Solids.Proofs.Alike.Kind
import Solids.Proofs.Build.Resume
import Solids.Proofs.Build.Session

/-!
# What keys forget

Parts of one key are alike, but need not be the same: a key does not tell zeros by their signs. Most
kinds make alike meshes all the same; whether combinations do is left open (`Kind.forgetsSigns`).
Parts of any kind make the same mesh if what has one key differs in names alone. Both are stated by
`Node.mesh_alike_of_key_eq`.

Two hulls of the corners of a tetrahedron that differ in the sign of one zero have one key, and
different triangles (`Node.triangles_tetrahedron`): the first corners of a hull are found in an
order that puts `-0` before `0`.
-/

namespace Solids

variable {ω : Type} {probe probe' : Nat → Bool}

/-- Alike kinds get alike meshes, or neither gets one, whatever their children are. -/
theorem Kind.Alike.ownMesh {α : Type} [Scalar α] [Scalar.SignBlind α] {k k' : Kind α}
    (h : k.Alike k') (hforgets : k.forgetsSigns = true) (cs cs' : List (Node α)) :
    Agree (Option.Rel Mesh.Alike) (Node.ownMesh k cs) (Node.ownMesh k' cs') := by
  have hown : k.hasOwnMesh = k'.hasOwnMesh := by
    cases k <;> cases k' <;> first | rfl | exact h.elim
  rw [Node.ownMesh, Node.ownMesh, hown]
  split
  · exact (h.construct hforgets cs cs').bind fun _ _ hm => .ok (.some hm)
  · exact .ok .none

namespace Node

/-- A part that is neither built nor found gets the mesh of its kind, if its build comes to the
    end. -/
theorem ownMesh_of_build {α : Type} [Scalar α] {n n' : Node α} {s s' : Site α ω}
    (hfresh : n.fresh = n) (hmissed : (s.lookup n).1 = none)
    (h : n.build probe s = .ok (true, n', s')) : ∃ cs, ownMesh n.kind cs = .ok n'.mesh? := by
  have hunbuilt : n.isBuilt = false ∧ n.mesh = none := by
    rw [← hfresh, fresh_eq]
    exact ⟨rfl, rfl⟩
  cases ends_of_build h with
  | built hbuilt _ => cases hunbuilt.1.symm.trans hbuilt
  | found _ hfound _ => cases hmissed.symm.trans hfound
  | @finished _ _ _ cs _ _ _ hfin =>
    refine ⟨cs, ?_⟩
    cases hfin with
    | constructed hown hm =>
      rw [ownMesh, if_pos hown, hm]
      rfl
    | plain hplain =>
      rw [ownMesh, if_neg (Bool.not_eq_true _ ▸ hplain)]
      exact congrArg Except.ok hunbuilt.2.symm

/-- A tree that is built to the end through an empty cache has the mesh that it gets alone, if parts
    of one key get one mesh. -/
theorem mesh?_of_build_new {α : Type} [Scalar α] {us : List (Node α)} (hus : MeshByKey us)
    {n n' : Node α} {limit : Nat} {s : Site α ω} (hn : n.Among us) (hfresh : n.fresh = n)
    (h : n.build probe { cache := .new limit } = .ok (true, n', s)) :
    ∃ b, n.alone = .ok b ∧ n'.mesh? = b.mesh := by
  obtain ⟨_, ⟨hfresh', hright⟩, hfin⟩ :=
    (build_leads hus hn (hfresh ▸ n.right_fresh) (Cache.coherent_new limit us)).of_ok h
  obtain ⟨hbuilt, _⟩ := hfin rfl
  obtain ⟨b, hb, hmesh⟩ := (right_iff.1 hright).1.mesh_eq hbuilt
  exact ⟨b, (alone_congr hfresh').symm.trans hb, by rw [mesh?, if_pos hbuilt, hmesh]⟩

/-- Trees of one key, each built to the end through an empty cache, have roots with alike meshes, or
    without any, if their kind forgets signs. Their meshes are the same, of whatever kind they are,
    if no parts that are alike differ in the sign of a zero. -/
theorem mesh_alike_of_key_eq [KeyDigest] {n m n' m' : Node Float} {limit limit' : Nat}
    {s s' : Site Float ω} (hn : n.Made) (hm : m.Made) (hnfresh : n.fresh = n)
    (hmfresh : m.fresh = m) (hnfits : n.Fits) (hmfits : m.Fits)
    (hfree : CollisionFree (partsOfAll [n, m])) (hkey : n.key = m.key)
    (hbuild : n.build probe { cache := .new limit } = .ok (true, n', s))
    (hbuild' : m.build probe' { cache := .new limit' } = .ok (true, m', s')) :
    (n.kind.forgetsSigns = true → Option.Rel Mesh.Alike n'.mesh? m'.mesh?) ∧
      ((∀ p ∈ partsOfAll [n, m], ∀ q ∈ partsOfAll [n, m], p.Alike q → p.unnamed = q.unnamed) →
        n'.mesh? = m'.mesh?) := by
  have hnmem : n ∈ [n, m] := .head _
  have hmmem : m ∈ [n, m] := .tail _ (.head _)
  have hnwithin : n.Within (partsOfAll [n, m]) :=
    ⟨hn.wellKeyed, hnfits, fun p hp => mem_partsOfAll.2 ⟨n, hnmem, hp⟩⟩
  have hmwithin : m.Within (partsOfAll [n, m]) :=
    ⟨hm.wellKeyed, hmfits, fun p hp => mem_partsOfAll.2 ⟨m, hmmem, hp⟩⟩
  have halike := (hfree.key_eq_iff_alike hnwithin hmwithin).1 hkey
  constructor
  · intro hforgets
    obtain ⟨cs, hmesh⟩ := ownMesh_of_build hnfresh (lookup_eq_none_iff.2 fun _ => rfl) hbuild
    obtain ⟨cs', hmesh'⟩ := ownMesh_of_build hmfresh (lookup_eq_none_iff.2 fun _ => rfl) hbuild'
    have hagree := (alike_iff.1 halike).1.ownMesh hforgets cs cs'
    rw [hmesh, hmesh'] at hagree
    exact hagree.of_ok
  · intro hunnamed
    have htold : Session.Told [n, m] :=
      ⟨List.forall_mem_cons.2 ⟨hn, List.forall_mem_singleton.2 hm⟩,
       List.forall_mem_cons.2 ⟨hnfresh, List.forall_mem_singleton.2 hmfresh⟩,
       List.forall_mem_cons.2 ⟨hnfits, List.forall_mem_singleton.2 hmfits⟩, hfree, hunnamed⟩
    have hamong := (htold.sound (w := Session.start limit [n, m] []) (ω := ω) rfl rfl).among
    have hmesh := htold.meshByKey
    obtain ⟨b, hb, hbmesh⟩ := mesh?_of_build_new hmesh (hamong n hnmem) hnfresh hbuild
    obtain ⟨c, hc, hcmesh⟩ := mesh?_of_build_new hmesh (hamong m hmmem) hmfresh hbuild'
    obtain ⟨c', hc', heq⟩ :=
      alone_mesh_of_unnamed_eq (hunnamed n hnwithin.mem m hmwithin.mem halike) hb
    cases hc.symm.trans hc'
    rw [hbmesh, hcmesh, heq]

/-! ## Shapes with a zero of either sign -/

/-- A prism over a triangle, one of whose corners has `x` for a zero. -/
def prism [KeyDigest] (x : Float) : Node Float :=
  Node.new (.extrude [.polygon [⟨x, 0.0, 0.0⟩, ⟨1.0, 0.0, 0.0⟩, ⟨0.0, 1.0, 0.0⟩]] { twist := 0.0 })

/-- The hull of the corners of a tetrahedron, one of which has `x` for a zero. -/
def tetrahedron [KeyDigest] (x : Float) : Node Float :=
  Node.new (.hull [⟨0.0, 0.0, 0.0⟩, ⟨1.0, 0.0, 0.0⟩, ⟨x, 1.0, 0.0⟩, ⟨0.0, 0.0, 1.0⟩])

section Mixing

attribute [local instance] KeyDigest.mixing

/-- The prisms with a zero of either sign are built to alike meshes. A tetrahedron under a name is
    built to the same mesh as without. -/
theorem mesh_alike_prism :
    (∃ (n m : Node Float) (s s' : Site Float Unit),
      (prism 0.0).build (fun _ => false) { cache := .new 0 } = .ok (true, n, s) ∧
      (prism (-0.0)).build (fun _ => false) { cache := .new 0 } = .ok (true, m, s') ∧
      n.polygonCount = 8 ∧ Option.Rel Mesh.Alike n.mesh? m.mesh?) ∧
    ∃ (n m : Node Float) (s s' : Site Float Unit),
      (tetrahedron 0.0).build (fun _ => false) { cache := .new 0 } = .ok (true, n, s) ∧
      ((tetrahedron 0.0).withName "tip").build (fun _ => false) { cache := .new 0 } =
        .ok (true, m, s') ∧
      n.mesh? = m.mesh? := by
  constructor
  · have hruns : done? (do
        let (done, n, _) ← (prism 0.0).build (fun _ => false)
          ({ cache := .new 0 } : Site Float Unit)
        let (done', _) ← (prism (-0.0)).build (fun _ => false)
          ({ cache := .new 0 } : Site Float Unit)
        return (decide (done = true ∧ done' = true ∧ n.polygonCount = 8), ())) = some true := by
      decide +kernel
    obtain ⟨_, hruns⟩ := exists_of_done? hruns
    obtain ⟨⟨done, n, s⟩, hn, hruns⟩ := bind_eq_ok_iff.1 hruns
    obtain ⟨⟨done', m, s'⟩, hm, hruns⟩ := bind_eq_ok_iff.1 hruns
    obtain ⟨rfl, rfl, hcount⟩ := of_decide_eq_true (Prod.ext_iff.1 (Except.ok.inj hruns)).1
    obtain ⟨halike, -⟩ := mesh_alike_of_key_eq (.new _) (.new _) rfl rfl (by decide +kernel)
      (by decide +kernel) (by decide +kernel) (by decide +kernel) hn hm
    exact ⟨n, m, s, s', hn, hm, hcount, halike rfl⟩
  · obtain ⟨⟨n, s⟩, hn⟩ : ∃ r, (tetrahedron 0.0).build (fun _ => false)
        ({ cache := .new 0 } : Site Float Unit) = .ok (true, r) :=
      exists_of_done? (by decide +kernel)
    obtain ⟨⟨m, s'⟩, hm⟩ : ∃ r, ((tetrahedron 0.0).withName "tip").build (fun _ => false)
        ({ cache := .new 0 } : Site Float Unit) = .ok (true, r) :=
      exists_of_done? (by decide +kernel)
    obtain ⟨-, hsame⟩ := mesh_alike_of_key_eq (.new _) (.withName _ (.new _)) rfl rfl
      (by decide +kernel) (by decide +kernel) (by decide +kernel) (by decide +kernel) hn hm
    refine ⟨n, m, s, s', hn, hm, hsame ?_⟩
    have hunnamed : ∀ p ∈ partsOfAll [tetrahedron 0.0, (tetrahedron 0.0).withName "tip"],
        p.unnamed = tetrahedron 0.0 :=
      List.forall_mem_cons.2 ⟨rfl, List.forall_mem_singleton.2 rfl⟩
    exact fun p hp q hq _ => (hunnamed p hp).trans (hunnamed q hq).symm

/-- The tetrahedra with a zero of either sign have one key, and are built to different triangles. -/
theorem triangles_tetrahedron : (tetrahedron 0.0).key = (tetrahedron (-0.0)).key ∧
    ∃ (n m : Node Float) (s s' : Site Float Unit),
      (tetrahedron 0.0).build (fun _ => false) { cache := .new 0 } = .ok (true, n, s) ∧
      (tetrahedron (-0.0)).build (fun _ => false) { cache := .new 0 } = .ok (true, m, s') ∧
      n.mesh?.map (·.triangles) = some [⟨1, 2, 3⟩, ⟨1, 3, 0⟩, ⟨1, 0, 2⟩, ⟨2, 0, 3⟩] ∧
      m.mesh?.map (·.triangles) = some [⟨2, 3, 1⟩, ⟨2, 0, 3⟩, ⟨2, 1, 0⟩, ⟨1, 3, 0⟩] := by
  have hruns : done? (do
      let (done, n, _) ← (tetrahedron 0.0).build (fun _ => false)
        ({ cache := .new 0 } : Site Float Unit)
      let (done', m, _) ← (tetrahedron (-0.0)).build (fun _ => false)
        ({ cache := .new 0 } : Site Float Unit)
      return (decide (done = true ∧ done' = true ∧
        n.mesh?.map (·.triangles) = some [⟨1, 2, 3⟩, ⟨1, 3, 0⟩, ⟨1, 0, 2⟩, ⟨2, 0, 3⟩] ∧
        m.mesh?.map (·.triangles) = some [⟨2, 3, 1⟩, ⟨2, 0, 3⟩, ⟨2, 1, 0⟩, ⟨1, 3, 0⟩]), ())) =
      some true := by decide +kernel
  obtain ⟨_, hruns⟩ := exists_of_done? hruns
  obtain ⟨⟨done, n, s⟩, hn, hruns⟩ := bind_eq_ok_iff.1 hruns
  obtain ⟨⟨done', m, s'⟩, hm, hruns⟩ := bind_eq_ok_iff.1 hruns
  obtain ⟨rfl, rfl, htriangles⟩ := of_decide_eq_true (Prod.ext_iff.1 (Except.ok.inj hruns)).1
  exact ⟨by decide +kernel, n, m, s, s', hn, hm, htriangles⟩

end Mixing

end Node

end Solids
