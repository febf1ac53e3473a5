import Solids.Proofs.Alike.Sweep

/-!
# Alike kinds

Alike kinds make alike meshes, if they make them from their parameters alone and neither order
points by their signs nor turn a profile along a rail (`Kind.Alike.construct`).

Along a rail that turns straight back a profile makes half a turn around an axis that is picked by
the sign of a zero, if the rail keeps to a plane (`Vec3.orthonormal`).
-/

namespace Solids

variable {α β γ δ ε : Type}

/-! ## Results that agree -/

/-- Both have results, and they are related, or both end with the same fault. -/
inductive Agree (R : β → γ → Prop) : Except Fault β → Except Fault γ → Prop
  | ok {x : β} {y : γ} : R x y → Agree R (.ok x) (.ok y)
  | error (e : Fault) : Agree R (.error e) (.error e)

namespace Agree

variable {R : β → γ → Prop} {S : δ → ε → Prop}

/-- A result agrees with itself. -/
theorem refl {R : β → β → Prop} (hrefl : ∀ x, R x x) (x : Except Fault β) : Agree R x x := by
  cases x with
  | ok x => exact .ok (hrefl x)
  | error e => exact .error e

/-- What agrees goes on to what agrees. -/
theorem bind {x : Except Fault β} {y : Except Fault γ} {f : β → Except Fault δ}
    {g : γ → Except Fault ε} (h : Agree R x y) (hfg : ∀ x y, R x y → Agree S (f x) (g y)) :
    Agree S (x >>= f) (y >>= g) := by
  cases h with
  | ok hxy => exact hfg _ _ hxy
  | error e => exact .error e

/-- Results that agree are related. -/
theorem of_ok {x : β} {y : γ} (h : Agree R (.ok x) (.ok y)) : R x y := by
  cases h
  assumption

/-- Walks that agree at every step agree. -/
theorem foldlM {f : δ → β → Except Fault δ} {g : ε → γ → Except Fault ε} {xs : List β}
    {ys : List γ} {d : δ} {e : ε} (hstep : ∀ d e x y, S d e → R x y → Agree S (f d x) (g e y))
    (hd : S d e) (h : List.Forall₂ R xs ys) : Agree S (xs.foldlM f d) (ys.foldlM g e) := by
  induction h generalizing d e with
  | nil => exact .ok hd
  | cons hx _ ih => exact (hstep _ _ _ _ hd hx).bind fun _ _ hd => ih hd

end Agree

variable [Scalar α]

/-! ## Merging -/

namespace Mesh

/-- The colors are alike, one by one. -/
abbrev AlikeColors (c d : Array Rgba) : Prop := List.Forall₂ Rgba.Alike c.toList d.toList

/-- Colors are like themselves. -/
theorem alikeColors_refl (c : Array Rgba) : AlikeColors c c :=
  List.forall₂_same.2 fun _ _ => ⟨rfl, rfl, rfl, rfl⟩

/-- A mesh is like itself. -/
theorem Alike.refl (m : Mesh α) : m.Alike m := by
  refine ⟨List.forall₂_same.2 fun v _ => .refl v, rfl, ?_⟩
  cases m.colors with
  | none => exact .none
  | some c => exact .some (alikeColors_refl c)

/-- Colors that are alike are brought to another number alike. -/
theorem fitColors_alike {c d : Array Rgba} (h : AlikeColors c d) (n : Nat) :
    AlikeColors (fitColors c n) (fitColors d n) := by
  have hsize : c.size = d.size := h.length_eq
  simp only [AlikeColors, fitColors, Array.toList_append, hsize]
  refine List.rel_append ?_ (alikeColors_refl _)
  rw [Array.take_eq_extract, Array.take_eq_extract, Array.toList_extract, Array.toList_extract]
  exact List.forall₂_take _ (List.forall₂_drop _ h)

namespace Alike

variable {m m' n n' : Mesh α} (hm : m.Alike m')
include hm

/-- Alike meshes have as many vertices. -/
theorem size_eq : m.vertices.size = m'.vertices.size := hm.1.length_eq

variable (hn : n.Alike n')
include hn

/-- Alike meshes have alike colors put together. -/
theorem mergedColors : Option.Rel AlikeColors (mergedColors m n) (mergedColors m' n') := by
  have hown := hm.2.2
  have htheirs := hn.2.2
  simp only [Mesh.mergedColors, hm.size_eq, hn.size_eq]
  generalize m.colors = a at hown
  generalize m'.colors = b at hown
  generalize n.colors = c at htheirs
  generalize n'.colors = d at htheirs
  cases hown with
  | none =>
    cases htheirs with
    | none => exact .none
    | some htheirs =>
      refine .some ?_
      simp only [AlikeColors, Array.toList_append]
      exact List.rel_append (alikeColors_refl _) htheirs
  | some hown =>
    cases htheirs with
    | none => exact .some (fitColors_alike hown _)
    | some htheirs =>
      refine .some ?_
      simp only [AlikeColors, Array.toList_append]
      exact List.rel_append hown htheirs

/-- Alike meshes put together are alike. -/
theorem merge : Agree Mesh.Alike (m.merge n) (m'.merge n') := by
  have hnext : m.nextIndex = m'.nextIndex := congrArg Nat.toUInt32 hm.size_eq
  rw [Mesh.merge, Mesh.merge, hnext, hn.2.1, hm.2.1]
  cases n'.triangles.mapM (shifted m'.nextIndex) with
  | error e => exact .error e
  | ok moved =>
    refine .ok ⟨?_, rfl, hm.mergedColors hn⟩
    rw [Array.toList_append, Array.toList_append]
    exact List.rel_append hm.1 hn.1

end Alike

/-- Rows of alike meshes put together are alike. -/
theorem mergeAll_alike {ms ns : List (Mesh α)} (h : List.Forall₂ Mesh.Alike ms ns) :
    Agree Mesh.Alike (mergeAll ms) (mergeAll ns) :=
  Agree.foldlM (fun _ _ _ _ hm hn => hm.merge hn) ⟨.nil, rfl, .none⟩ h

end Mesh

/-! ## Kinds -/

namespace Kind

/-- The mesh is made from the parameters alone, and neither are points put in an order that tells
    zeros by their signs nor a profile turned along a rail.

    Combinations are left open, also those of children that all forget signs. Where a surface is
    cut, a height is divided by the product of a normal with the way between two vertices
    (`Plane.crossing`), and a division by a zero tells its sign. Between vertices on different
    sides of the plane a negative zero would have to come from products that underflow. The laws of
    signs (`Scalar.SignBlind`) say nothing about how numbers are rounded, so they do not exclude
    it. -/
def forgetsSigns : Kind α → Bool
  | hull _ | combination _ => false
  | extrude _ options => options.along.isEmpty
  | _ => true

variable [Scalar.SignBlind α]

omit [Scalar.SignBlind α] in
/-- Of alike paths the same are lines. -/
theorem usable_alike {ps qs : List (Path α)} (h : List.Forall₂ Path.Alike ps qs) :
    List.Forall₂ Path.Alike (Path.usable ps) (Path.usable qs) :=
  List.rel_filter (R := Path.Alike) (fun _ _ hp => by simp only [hp.isEmpty_eq]) h

/-- Alike kinds make alike meshes, whatever their children are. -/
theorem Alike.construct {k k' : Kind α} (h : k.Alike k') (hforgets : k.forgetsSigns = true)
    (cs cs' : List (Node α)) : Agree Mesh.Alike (k.construct cs) (k'.construct cs') := by
  rcases k with _ | n | n | n | _ | ⟨paths, options⟩ | ⟨paths, n⟩ | paths | paths | points | op |
    p | m | c | l <;>
  rcases k' with _ | n' | n' | n' | _ | ⟨paths', options'⟩ | ⟨paths', n'⟩ | paths' | paths' |
    points' | op' | p' | m' | c' | l'
  -- Kinds of different sorts are not alike.
  all_goals try exact h.elim
  case group.group | cube.cube | path.path | camera.camera | light.light =>
    exact .ok (.refl _)
  case cone.cone | cylinder.cylinder | sphere.sphere =>
    obtain rfl : n = n' := h
    exact .refl .refl _
  case extrude.extrude =>
    obtain ⟨hpaths, halong, -⟩ := h
    have hnone : options.along = [] := List.isEmpty_iff.1 hforgets
    have hnone' : options'.along = [] := by
      rw [hnone] at halong
      exact List.forall₂_nil_left_iff.1 halong
    rw [Kind.construct, Kind.construct, Extrusion.construct, Extrusion.construct, hnone, hnone']
    exact Mesh.mergeAll_alike (List.rel_map (R := Path.Alike) (fun _ _ hp => hp.extrude)
      (usable_alike hpaths))
  case lathe.lathe =>
    obtain ⟨hpaths, rfl⟩ := h
    exact Mesh.mergeAll_alike (List.rel_map (R := Path.Alike) (fun _ _ hp => hp.lathe n)
      (usable_alike hpaths))
  case loft.loft => exact .ok (Path.loft_alike h)
  case fill.fill =>
    exact Mesh.mergeAll_alike (List.rel_map (R := Path.Alike) (fun _ _ hp => hp.fill)
      (usable_alike h))
  case hull.hull | combination.combination => cases hforgets
  case mesh.mesh => exact .ok h

end Kind

end Solids
