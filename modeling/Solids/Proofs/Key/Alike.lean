import Solids.Proofs.Key.Bytes

/-!
# Likeness

What a part consists of is *alike* if it is the same with every number taken for its pattern, so
that both zeros are one and all `NaN`s are one: `Vec3.Alike`, `Path.Alike`, and so on up to
`Kind.Alike`. Materials are alike if they have one identity. The components of vertex colors are
compared after they were widened, as they are written.

The bytes that a key is digested from say just what is alike (`CacheKey.fed_eq_iff`): the bytes of
every piece are delimited, and the number of children, which comes last, follows from the number of
bytes.
-/

namespace Solids

variable {α : Type} [Scalar α]

/-! ## Shapes that are alike -/

/-- The numbers have one pattern. -/
def Scalar.Alike (x y : α) : Prop := Scalar.bits x = Scalar.bits y

/-- The components are alike. -/
def Vec3.Alike (v w : Vec3 α) : Prop :=
  Scalar.Alike v.x w.x ∧ Scalar.Alike v.y w.y ∧ Scalar.Alike v.z w.z

/-- The components are alike. -/
def Rotation.Alike (q r : Rotation α) : Prop :=
  Scalar.Alike q.x r.x ∧ Scalar.Alike q.y r.y ∧ Scalar.Alike q.z r.z ∧ Scalar.Alike q.w r.w

/-- The offsets, the rotations and the scales are alike. -/
def Transform.Alike (t u : Transform α) : Prop :=
  t.offset.Alike u.offset ∧ t.rotation.Alike u.rotation ∧ t.scale.Alike u.scale

/-- The positions are alike, and the path bends at both or at neither. -/
def Waypoint.Alike (p q : Waypoint α) : Prop :=
  p.position.Alike q.position ∧ p.curved = q.curved

/-- The points are alike, one by one. -/
def Path.Alike (p q : Path α) : Prop := List.Forall₂ Waypoint.Alike p.points q.points

/-- The widened components are alike. -/
def Rgba.Alike (c d : Rgba) : Prop :=
  Scalar.Alike (Binary.widen c.r) (Binary.widen d.r) ∧
    Scalar.Alike (Binary.widen c.g) (Binary.widen d.g) ∧
    Scalar.Alike (Binary.widen c.b) (Binary.widen d.b) ∧
    Scalar.Alike (Binary.widen c.a) (Binary.widen d.a)

/-- The vertices and the colors are alike, one by one, and the triangles are the same. -/
def Mesh.Alike (m n : Mesh α) : Prop :=
  List.Forall₂ Vec3.Alike m.vertices.toList n.vertices.toList ∧ m.triangles = n.triangles ∧
    Option.Rel (fun c d : Array Rgba => List.Forall₂ Rgba.Alike c.toList d.toList)
      m.colors n.colors

/-- The rails and the twists are alike, and the alignments are the same. -/
def Extrusion.Alike (e f : Extrusion α) : Prop :=
  List.Forall₂ Path.Alike e.along f.along ∧ Scalar.Alike e.twist f.twist ∧ e.align = f.align

/-- The numbers that are there are alike. -/
def Camera.Alike (c d : Camera) : Prop :=
  Option.Rel Scalar.Alike c.fov d.fov ∧ Option.Rel Scalar.Alike c.width d.width ∧
    Option.Rel Scalar.Alike c.height d.height

/-- The components are alike. -/
def Color.Alike (c d : Color) : Prop :=
  Scalar.Alike c.r d.r ∧ Scalar.Alike c.g d.g ∧ Scalar.Alike c.b d.b ∧ Scalar.Alike c.a d.a

/-- The colors and the cones are alike. -/
def Light.Alike (l m : Light) : Prop :=
  l.color.Alike m.color ∧ Scalar.Alike l.spread m.spread ∧ Scalar.Alike l.penumbra m.penumbra

/-- The kinds are of one sort and have parameters that are alike. -/
def Kind.Alike : Kind α → Kind α → Prop
  | group, group | cube, cube => True
  | cone n, cone n' | cylinder n, cylinder n' | sphere n, sphere n' => n = n'
  | extrude paths options, extrude paths' options' =>
    List.Forall₂ Path.Alike paths paths' ∧ options.Alike options'
  | lathe paths n, lathe paths' n' => List.Forall₂ Path.Alike paths paths' ∧ n = n'
  | loft paths, loft paths' | fill paths, fill paths' => List.Forall₂ Path.Alike paths paths'
  | hull points, hull points' => List.Forall₂ Vec3.Alike points points'
  | combination op, combination op' => op = op'
  | path p, path p' => p.Alike p'
  | mesh m, mesh m' => m.Alike m'
  | camera c, camera c' => c.Alike c'
  | light l, light l' => l.Alike l'
  | _, _ => False

/-! ## Lists that have a word for their length -/

/-- The list of points is countable. -/
def Path.Fits (p : Path α) : Prop := Countable p.points

/-- The list of paths is countable, and so are their points. -/
def PathsFit (paths : List (Path α)) : Prop := Countable paths ∧ ∀ p ∈ paths, p.Fits

/-- The lists of vertices, triangles and colors are countable. -/
def Mesh.Fits (m : Mesh α) : Prop :=
  Countable m.vertices.toList ∧ Countable m.triangles ∧ ∀ c ∈ m.colors, Countable c.toList

/-- All lists among the kind's parameters are countable. -/
def Kind.Fits : Kind α → Prop
  | extrude paths options => PathsFit paths ∧ PathsFit options.along
  | lathe paths _ | loft paths | fill paths => PathsFit paths
  | hull points => Countable points
  | path p => p.Fits
  | mesh m => m.Fits
  | _ => True

instance (p : Path α) : Decidable p.Fits := inferInstanceAs (Decidable (Countable p.points))

instance (paths : List (Path α)) : Decidable (PathsFit paths) :=
  inferInstanceAs (Decidable (Countable paths ∧ ∀ p ∈ paths, p.Fits))

instance (m : Mesh α) : Decidable m.Fits :=
  inferInstanceAs (Decidable (Countable m.vertices.toList ∧ Countable m.triangles ∧
    ∀ c ∈ m.colors, Countable c.toList))

instance : (kind : Kind α) → Decidable kind.Fits
  | .extrude paths options => inferInstanceAs (Decidable (PathsFit paths ∧ PathsFit options.along))
  | .lathe paths _ | .loft paths | .fill paths => inferInstanceAs (Decidable (PathsFit paths))
  | .hull points => inferInstanceAs (Decidable (Countable points))
  | .path p => inferInstanceAs (Decidable p.Fits)
  | .mesh m => inferInstanceAs (Decidable m.Fits)
  | .group | .cone _ | .cylinder _ | .sphere _ | .cube | .combination _ | .camera _ | .light _ =>
    inferInstanceAs (Decidable True)

/-! ## Numbers and what is made of a few of them -/

/-- The bytes of a number are delimited. -/
theorem Scalar.bytes_append {x y : α} {s t : List UInt8} :
    Scalar.bytes x ++ s = Scalar.bytes y ++ t ↔ Scalar.Alike x y ∧ s = t :=
  wordBytes_append

/-- The bytes of a vector are delimited. -/
theorem Vec3.bytes_append {v w : Vec3 α} {s t : List UInt8} :
    v.bytes ++ s = w.bytes ++ t ↔ v.Alike w ∧ s = t := by
  simp only [Vec3.bytes, Vec3.toList, List.flatMap_cons, List.flatMap_nil, List.append_nil,
    List.append_assoc, Scalar.bytes_append, Vec3.Alike, and_assoc]

/-- The bytes of a rotation are delimited. -/
theorem Rotation.bytes_append {q r : Rotation α} {s t : List UInt8} :
    q.bytes ++ s = r.bytes ++ t ↔ q.Alike r ∧ s = t := by
  simp only [Rotation.bytes, Rotation.toList, List.flatMap_cons, List.flatMap_nil,
    List.append_nil, List.append_assoc, Scalar.bytes_append, Rotation.Alike, and_assoc]

/-- The bytes of a transform are delimited. -/
theorem Transform.bytes_append {u v : Transform α} {s t : List UInt8} :
    u.bytes ++ s = v.bytes ++ t ↔ u.Alike v ∧ s = t := by
  simp only [Transform.bytes, List.append_assoc, Vec3.bytes_append, Rotation.bytes_append,
    Transform.Alike, and_assoc]

/-- The bytes of a vertex color are delimited. -/
theorem Rgba.bytes_append {c d : Rgba} {s t : List UInt8} :
    c.bytes ++ s = d.bytes ++ t ↔ c.Alike d ∧ s = t := by
  simp only [Rgba.bytes, Rgba.toList, List.flatMap_cons, List.flatMap_nil, List.append_nil,
    List.append_assoc, Scalar.bytes_append, Rgba.Alike, and_assoc]

/-- The bytes of a waypoint are delimited. -/
theorem Waypoint.bytes_append {p q : Waypoint α} {s t : List UInt8} :
    p.bytes ++ s = q.bytes ++ t ↔ p.Alike q ∧ s = t := by
  rw [Waypoint.bytes, Waypoint.bytes, List.append_assoc, List.append_assoc, Vec3.bytes_append,
    boolBytes_append, Waypoint.Alike, and_assoc]

/-- The bytes of a triangle are delimited. -/
theorem Triangle.bytes_append {a b : Triangle UInt32} {s t : List UInt8} :
    a.bytes ++ s = b.bytes ++ t ↔ a = b ∧ s = t := by
  obtain ⟨a₁, a₂, a₃⟩ := a
  obtain ⟨b₁, b₂, b₃⟩ := b
  simp only [Triangle.bytes, listBytes, Triangle.toList, List.flatMap_cons, List.flatMap_nil,
    List.append_nil, List.append_assoc, List.length_cons, List.length_nil,
    List.append_cancel_left_eq, indexBytes_append, Triangle.mk.injEq, and_assoc]

/-- The bytes of four patterns are delimited. -/
theorem patternBytes_append {r g b a r' g' b' a' : UInt64} {s t : List UInt8} :
    patternBytes r g b a ++ s = patternBytes r' g' b' a' ++ t ↔
      r = r' ∧ g = g' ∧ b = b' ∧ a = a' ∧ s = t := by
  simp only [patternBytes, listBytes, List.flatMap_cons, List.flatMap_nil, List.append_nil,
    List.append_assoc, List.length_cons, List.length_nil, List.append_cancel_left_eq,
    wordBytes_append]

/-- The bytes of a color are delimited. -/
theorem Color.bytes_append {c d : Color} {s t : List UInt8} :
    c.bytes ++ s = d.bytes ++ t ↔ c.Alike d ∧ s = t := by
  simp only [Color.bytes, patternBytes_append, Color.Alike, Scalar.Alike, and_assoc]

/-- The bytes of a light are delimited. -/
theorem Light.bytes_append {l m : Light} {s t : List UInt8} :
    l.bytes ++ s = m.bytes ++ t ↔ l.Alike m ∧ s = t := by
  simp only [Light.bytes, List.append_assoc, Color.bytes_append, Scalar.bytes_append, Light.Alike,
    and_assoc]

/-- The bytes of a camera are delimited. -/
theorem Camera.bytes_append {c d : Camera} {s t : List UInt8} :
    c.bytes ++ s = d.bytes ++ t ↔ c.Alike d ∧ s = t := by
  have hoption {x y : Option Float} {s t : List UInt8} :
      optionBytes Scalar.bytes x ++ s = optionBytes Scalar.bytes y ++ t ↔
        Option.Rel Scalar.Alike x y ∧ s = t :=
    optionBytes_append fun _ _ _ _ => Scalar.bytes_append
  simp only [Camera.bytes, List.append_assoc, hoption, Camera.Alike, and_assoc]

/-! ## Materials -/

/-- The bytes of what a surface shows are delimited. -/
theorem Material.DiffuseIdentity.bytes_append {d e : DiffuseIdentity} {s t : List UInt8} :
    d.bytes ++ s = e.bytes ++ t ↔ d = e ∧ s = t := by
  cases d with
  | plain => cases e <;> simp [DiffuseIdentity.bytes, wordBytes_append]
  | color r g b a =>
    cases e <;> simp [DiffuseIdentity.bytes, wordBytes_append, patternBytes_append, and_assoc]
  | texture name intensity =>
    cases e <;> simp [DiffuseIdentity.bytes, wordBytes_append, textBytes_append, and_assoc]

/-- The bytes of a material are delimited. -/
theorem Material.bytes_append {m n : Material} {s t : List UInt8} :
    m.bytes ++ s = n.bytes ++ t ↔ m.identity = n.identity ∧ s = t := by
  rw [Material.bytes, Material.bytes, List.append_assoc, List.append_assoc, wordBytes_append,
    DiffuseIdentity.bytes_append, ← and_assoc]
  obtain ⟨opacity, diffuse⟩ := m.identity
  obtain ⟨opacity', diffuse'⟩ := n.identity
  rw [Identity.mk.injEq]

/-! ## Lists of points -/

/-- The bytes of a path are delimited. -/
theorem Path.delimited : Delimited Path.Fits Path.Alike (Path.bytes (α := α)) :=
  fun _ _ hp hq => listBytes_append (fun _ _ _ _ => Waypoint.bytes_append) hp hq

/-- The bytes of a list of paths are delimited. -/
theorem paths_delimited :
    Delimited PathsFit (List.Forall₂ Path.Alike) (listBytes (Path.bytes (α := α))) :=
  Path.delimited.list

/-- The bytes of a list of vectors are delimited. -/
theorem vectors_delimited :
    Delimited Countable (List.Forall₂ Vec3.Alike) (listBytes (Vec3.bytes (α := α))) :=
  fun _ _ hv hw => listBytes_append (fun _ _ _ _ => Vec3.bytes_append) hv hw

/-- The bytes of a list of triangles are delimited. -/
theorem triangles_delimited : Delimited Countable Eq (listBytes Triangle.bytes) := by
  intro ts us ht hu s t
  rw [listBytes_append (fun _ _ _ _ => Triangle.bytes_append) ht hu, List.forall₂_eq_eq_eq]

/-- The bytes of vertex colors are delimited. -/
theorem colors_delimited :
    Delimited (fun c : Array Rgba => Countable c.toList)
      (fun c d => List.Forall₂ Rgba.Alike c.toList d.toList)
      (fun c => listBytes Rgba.bytes c.toList) :=
  fun _ _ hc hd => listBytes_append (fun _ _ _ _ => Rgba.bytes_append) hc hd

/-- The bytes of a mesh are delimited. -/
theorem Mesh.delimited : Delimited Mesh.Fits Mesh.Alike (Mesh.bytes (α := α)) := by
  intro m n ⟨hmv, hmt, hmc⟩ ⟨hnv, hnt, hnc⟩ s t
  rw [Mesh.bytes, Mesh.bytes, List.append_assoc, List.append_assoc, List.append_assoc,
    List.append_assoc, vectors_delimited hmv hnv, triangles_delimited hmt hnt,
    colors_delimited.option hmc hnc, Mesh.Alike, and_assoc, and_assoc]

/-! ## Kinds -/

/-- No two alignments have one word. -/
theorem Alignment.word_inj {a b : Alignment} : a.word = b.word ↔ a = b := by
  cases a <;> cases b <;> decide

/-- The bytes of the parameters of an extrusion are delimited. -/
theorem Extrusion.bytes_append {e f : Extrusion α} (he : PathsFit e.along)
    (hf : PathsFit f.along) {s t : List UInt8} :
    e.bytes ++ s = f.bytes ++ t ↔ e.Alike f ∧ s = t := by
  simp only [Extrusion.bytes, List.append_assoc, paths_delimited he hf, Scalar.bytes_append,
    wordBytes_append, Alignment.word_inj, Extrusion.Alike, and_assoc]

/-- Kinds that are alike have one word. -/
theorem Kind.Alike.word_eq {k k' : Kind α} (h : k.Alike k') : k.word = k'.word := by
  cases k <;> cases k' <;> first
    | rfl
    | exact h.elim
    | exact congrArg (fun op => (Kind.combination op : Kind α).word) h

/-- Behind one word, the bytes of the parameters tell them. -/
theorem Kind.parameterBytes_append {k k' : Kind α} (hk : k.Fits) (hk' : k'.Fits)
    (hword : k.word = k'.word) {s t : List UInt8} :
    k.parameterBytes ++ s = k'.parameterBytes ++ t ↔ k.Alike k' ∧ s = t := by
  rcases k with _ | n | n | n | _ | ⟨paths, options⟩ | ⟨paths, n⟩ | paths | paths | points |
    (_ | _ | _ | _ | _) | p | m | c | l <;>
  rcases k' with _ | n' | n' | n' | _ | ⟨paths', options'⟩ | ⟨paths', n'⟩ | paths' | paths' |
    points' | (_ | _ | _ | _ | _) | p' | m' | c' | l'
  -- Kinds of different sorts have different words.
  all_goals try cases hword
  all_goals simp only [parameterBytes, Alike, List.nil_append, List.append_assoc, true_and]
  · exact indexBytes_append
  · exact indexBytes_append
  · exact indexBytes_append
  · rw [paths_delimited hk.1 hk'.1, Extrusion.bytes_append hk.2 hk'.2, and_assoc]
  · rw [paths_delimited hk hk', indexBytes_append, and_assoc]
  · exact paths_delimited hk hk'
  · exact paths_delimited hk hk'
  · exact vectors_delimited hk hk'
  · exact Path.delimited hk hk'
  · exact Mesh.delimited hk hk'
  · exact Camera.bytes_append
  · exact Light.bytes_append

/-- The bytes of a kind are delimited. -/
theorem Kind.delimited : Delimited Kind.Fits Kind.Alike (Kind.bytes (α := α)) := by
  intro k k' hk hk' s t
  rw [Kind.bytes, Kind.bytes, List.append_assoc, List.append_assoc, wordBytes_append]
  constructor
  · rintro ⟨hword, h⟩
    exact (parameterBytes_append hk hk' hword).1 h
  · rintro ⟨h, rfl⟩
    exact ⟨h.word_eq, (parameterBytes_append hk hk' h.word_eq).2 ⟨h, rfl⟩⟩

/-! ## Parts -/

/-- Lists of keys followed by their number are the same if their bytes are. -/
theorem CacheKey.children_inj {ks ls : List CacheKey} :
    ks.flatMap bytes ++ lengthBytes ks.length = ls.flatMap bytes ++ lengthBytes ls.length ↔
      ks = ls := by
  refine ⟨fun h => ?_, fun h => h ▸ rfl⟩
  -- Every key has eight bytes, so as many bytes are of as many keys.
  have hsum (ks : List CacheKey) : (ks.flatMap bytes).length = 8 * ks.length := by
    induction ks with
    | nil => rfl
    | cons k ks ih =>
      rw [List.flatMap_cons, List.length_append, ih, List.length_cons, Nat.mul_succ, Nat.add_comm]
      rfl
  have hlength : ks.length = ls.length := by
    have := congrArg List.length h
    rw [List.length_append, List.length_append, hsum, hsum, lengthBytes, lengthBytes,
      length_wordBytes, length_wordBytes] at this
    omega
  have hbytes : Delimited (fun _ => True) Eq bytes := by
    rintro ⟨k⟩ ⟨l⟩ - - s t
    rw [bytes, bytes, wordBytes_append, CacheKey.mk.injEq]
  exact List.forall₂_eq_eq_eq ▸ ((hbytes.flatMap (fun _ _ => trivial) (fun _ _ => trivial)
    hlength).1 h).1

/-- The bytes that keys are digested from are the same exactly for kinds that are alike, materials
    of one identity, transforms that are alike, and the same keys of children. -/
theorem CacheKey.fed_eq_iff {k k' : Kind α} {m m' : Material} {t t' : Transform α}
    {ks ks' : List CacheKey} (hk : k.Fits) (hk' : k'.Fits) :
    fed k m t ks = fed k' m' t' ks' ↔
      k.Alike k' ∧ m.identity = m'.identity ∧ t.Alike t' ∧ ks = ks' := by
  simp only [fed, List.append_assoc]
  rw [Kind.delimited hk hk', Material.bytes_append, Transform.bytes_append, children_inj]

end Solids
