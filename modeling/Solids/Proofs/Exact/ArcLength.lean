import Mathlib.Analysis.SpecialFunctions.Trigonometric.Basic
import Solids.Proofs.Exact.Estimate
import Solids.Proofs.Exact.Point
import Solids.Proofs.Mesh.Cutting
import Solids.Sweep.Loft

/-!
# Points by arc length

A row of segments is walked at unit speed, and after a distance a point is reached (`Sweep.At`). If
each segment begins where the one before it ends, there is only one such point
(`Sweep.At.unique`): at a corner the end of one segment is the start of the next, and a segment
without length is a point.

Over exact numbers, a line through points is resampled to the points reached after equal distances
(`Sweep.resample_arcLength`). The cursor that goes along with the targets stops at the first segment
in which the target is reached (`Sweep.exists_advance_eq`), and since the targets rise it never has
to go back.
-/

namespace Solids

/-- Each step of a sequence begins where the one before it ends. -/
theorem isChain_steps {β : Type} (closed : Bool) (xs : List β) :
    (steps closed xs).IsChain fun s s' => s.2 = s'.1 := by
  have hopen (x : β) (xs : List β) : (steps false (x :: xs)).IsChain fun s s' => s.2 = s'.1 := by
    induction xs generalizing x with
    | nil => exact .nil
    | cons y ys ih =>
      change ((x, y) :: steps false (y :: ys)).IsChain _
      cases ys with
      | nil => exact .singleton _
      | cons z zs => exact (ih y).cons_cons rfl
  cases xs with
  | nil => exact .nil
  | cons x xs =>
    cases closed with
    | false => exact hopen x xs
    | true =>
      rw [steps_true_cons]
      exact hopen x _

namespace Sweep

variable [Reading] {s : Vec3 ℝ × Vec3 ℝ} {segments rest passed : List (Vec3 ℝ × Vec3 ℝ)}
  {p q : Vec3 ℝ} {d : ℝ}

/-! ## Walking a row of segments -/

/-- The length of a row of segments. -/
noncomputable def rowLength (segments : List (Vec3 ℝ × Vec3 ℝ)) : ℝ :=
  (segments.map fun s => s.1.distance s.2).sum

/-- The point is reached after a distance along a row of segments: after a share of the first one,
    or after all of it and the rest of the distance along the others. -/
inductive At : List (Vec3 ℝ × Vec3 ℝ) → ℝ → Vec3 ℝ → Prop
  | within {s : Vec3 ℝ × Vec3 ℝ} {rest : List (Vec3 ℝ × Vec3 ℝ)} {t : ℝ} :
      0 ≤ t → t ≤ 1 → At (s :: rest) (t * s.1.distance s.2) (s.1.lerp s.2 t)
  | beyond {s : Vec3 ℝ × Vec3 ℝ} {rest : List (Vec3 ℝ × Vec3 ℝ)} {d : ℝ} {p : Vec3 ℝ} :
      At rest d p → At (s :: rest) (s.1.distance s.2 + d) p

/-- No length is added by no segments. -/
theorem rowLength_nil : rowLength [] = 0 := rfl

/-- The length of a segment is added to that of the others. -/
theorem rowLength_cons (s : Vec3 ℝ × Vec3 ℝ) (segments : List (Vec3 ℝ × Vec3 ℝ)) :
    rowLength (s :: segments) = s.1.distance s.2 + rowLength segments := rfl

/-- The lengths of two rows are added. -/
theorem rowLength_append (passed rest : List (Vec3 ℝ × Vec3 ℝ)) :
    rowLength (passed ++ rest) = rowLength passed + rowLength rest := by
  rw [rowLength, List.map_append, List.sum_append]
  rfl

/-- As far along a segment is the same point, also if the segment has no length. -/
theorem lerp_eq_of_mul_eq {t u : ℝ} (h : t * s.1.distance s.2 = u * s.1.distance s.2) :
    s.1.lerp s.2 t = s.1.lerp s.2 u := by
  rcases mul_eq_mul_right_iff.1 h with rfl | hlength
  · rfl
  · rw [← Vec3.eq_of_distance_eq_zero hlength, Vec3.lerp_self, Vec3.lerp_self]

namespace At

/-- Points are reached after distances that are not negative. -/
theorem nonneg (h : At segments d p) : 0 ≤ d := by
  induction h with
  | within ht _ => exact mul_nonneg ht (Vec3.distance_nonneg _ _)
  | beyond _ ih => exact add_nonneg (Vec3.distance_nonneg _ _) ih

/-- A row of segments starts at the start of its first one. -/
theorem start (s : Vec3 ℝ × Vec3 ℝ) (rest : List (Vec3 ℝ × Vec3 ℝ)) : At (s :: rest) 0 s.1 := by
  have h : At (s :: rest) (0 * s.1.distance s.2) (s.1.lerp s.2 0) := .within le_rfl zero_le_one
  rwa [zero_mul, Vec3.lerp_zero] at h

/-- A point of the other segments is reached after those before them. -/
theorem append (h : At rest d p) (passed : List (Vec3 ℝ × Vec3 ℝ)) :
    At (passed ++ rest) (rowLength passed + d) p := by
  induction passed with
  | nil =>
    rw [rowLength_nil, zero_add]
    exact h
  | cons s passed ih =>
    rw [rowLength_cons, add_assoc]
    exact .beyond ih

/-- A row of segments ends at the end of its last one. -/
theorem finish (passed : List (Vec3 ℝ × Vec3 ℝ)) (s : Vec3 ℝ × Vec3 ℝ) :
    At (passed ++ [s]) (rowLength (passed ++ [s])) s.2 := by
  have h : At [s] (1 * s.1.distance s.2) (s.1.lerp s.2 1) := .within zero_le_one le_rfl
  rw [one_mul, Vec3.lerp_one] at h
  rw [rowLength_append, rowLength_cons, rowLength_nil, add_zero]
  exact h.append passed

/-- A point is reached on the first segment or on the others. -/
theorem cons_iff : At (s :: rest) d p ↔
    (∃ t, 0 ≤ t ∧ t ≤ 1 ∧ d = t * s.1.distance s.2 ∧ p = s.1.lerp s.2 t) ∨
      ∃ d', d = s.1.distance s.2 + d' ∧ At rest d' p := by
  constructor
  · intro h
    cases h with
    | within ht ht' => exact .inl ⟨_, ht, ht', rfl, rfl⟩
    | beyond h => exact .inr ⟨_, rfl, h⟩
  · rintro (⟨t, ht, ht', rfl, rfl⟩ | ⟨d', rfl, h⟩)
    · exact .within ht ht'
    · exact .beyond h

/-- Before any way is made along joined segments, only their start is reached. -/
theorem eq_start (hjoined : (s :: rest).IsChain fun s s' => s.2 = s'.1)
    (h : At (s :: rest) 0 p) : p = s.1 := by
  have hstart {s : Vec3 ℝ × Vec3 ℝ} {t : ℝ} (hd : 0 = t * s.1.distance s.2) :
      s.1.lerp s.2 t = s.1 := by
    rw [lerp_eq_of_mul_eq (hd.symm.trans (zero_mul _).symm), Vec3.lerp_zero]
  induction rest generalizing s with
  | nil =>
    obtain ⟨t, -, -, hd, rfl⟩ | ⟨d', -, h⟩ := cons_iff.1 h
    · exact hstart hd
    · cases h
  | cons s' rest ih =>
    obtain ⟨t, -, -, hd, rfl⟩ | ⟨d', hd, h⟩ := cons_iff.1 h
    · exact hstart hd
    · -- The first segment has no length, and its end is where the others start.
      have hlength := s.1.distance_nonneg s.2
      obtain rfl : d' = 0 := by linarith [h.nonneg]
      obtain ⟨hjoint, hjoined⟩ := List.isChain_cons_cons.1 hjoined
      rw [ih hjoined h, ← hjoint]
      exact (Vec3.eq_of_distance_eq_zero (by linarith)).symm

/-- What is reached on a segment and beyond it after the same distance is their joint. -/
theorem lerp_eq_of_beyond (hjoined : (s :: rest).IsChain fun s s' => s.2 = s'.1) {t : ℝ}
    (ht : t ≤ 1) (hd : t * s.1.distance s.2 = s.1.distance s.2 + d) (h : At rest d p) :
    s.1.lerp s.2 t = p := by
  have hlength := s.1.distance_nonneg s.2
  have hle := mul_le_of_le_one_left hlength ht
  obtain rfl : d = 0 := by linarith [h.nonneg]
  cases rest with
  | nil => cases h
  | cons s' rest =>
    obtain ⟨hjoint, hjoined⟩ := List.isChain_cons_cons.1 hjoined
    have hfull : t * s.1.distance s.2 = 1 * s.1.distance s.2 := by rw [hd, add_zero, one_mul]
    rw [h.eq_start hjoined, ← hjoint]
    exact (lerp_eq_of_mul_eq hfull).trans (Vec3.lerp_one _ _)

/-- After a distance along joined segments one point is reached. -/
theorem unique (hjoined : segments.IsChain fun s s' => s.2 = s'.1) (hp : At segments d p)
    (hq : At segments d q) : p = q := by
  induction segments generalizing d with
  | nil => cases hp
  | cons s rest ih =>
    obtain ⟨t, -, ht, hd, rfl⟩ | ⟨d', hd, hp⟩ := cons_iff.1 hp <;>
      obtain ⟨u, -, hu, hd', rfl⟩ | ⟨d'', hd', hq⟩ := cons_iff.1 hq
    · exact lerp_eq_of_mul_eq (hd.symm.trans hd')
    · exact lerp_eq_of_beyond hjoined ht (hd.symm.trans hd') hq
    · exact (lerp_eq_of_beyond hjoined hu (hd'.symm.trans hd) hp).symm
    · obtain rfl : d' = d'' := by linarith
      exact ih hjoined.tail hp hq

end At

/-! ## Sampling -/

/-- The point of a segment at a distance from its start is reached there. -/
theorem at_pointAt (hd : 0 ≤ d) (hd' : d ≤ s.1.distance s.2)
    (rest : List (Vec3 ℝ × Vec3 ℝ)) : At (s :: rest) d (pointAt s d) := by
  rw [pointAt, Scalar.zero_eq]
  split
  · next hlength =>
    have hshare : 0 ≤ d / s.1.distance s.2 := div_nonneg hd hlength.le
    have hshare' : d / s.1.distance s.2 ≤ 1 := (div_le_one hlength).2 hd'
    have hwithin : At (s :: rest) (d / s.1.distance s.2 * s.1.distance s.2)
        (s.1.lerp s.2 (d / s.1.distance s.2)) := .within hshare hshare'
    rw [div_mul_cancel₀ _ hlength.ne'] at hwithin
    rwa [Scalar.clampUnit_of_mem hshare hshare']
  · next hlength =>
    -- The segment is a point.
    obtain rfl : d = 0 := le_antisymm (hd'.trans (not_lt.1 hlength)) hd
    rw [Vec3.lerp_zero]
    exact .start s rest

/-- The cursor stops at the first segment in which the target is reached. -/
theorem exists_advance_eq {target walked : ℝ} (hsegments : segments ≠ [])
    (hwalked : walked ≤ target) (htarget : target ≤ walked + rowLength segments) :
    ∃ passed s rest, segments = passed ++ s :: rest ∧
      advance target walked segments = (s :: rest, walked + rowLength passed) ∧
      walked + rowLength passed ≤ target ∧
      target - (walked + rowLength passed) ≤ s.1.distance s.2 := by
  induction segments generalizing walked with
  | nil => exact absurd rfl hsegments
  | cons s segments ih =>
    cases segments with
    | nil =>
      rw [rowLength_cons, rowLength_nil, add_zero] at htarget
      refine ⟨[], s, [], rfl, ?_, ?_, ?_⟩ <;> rw [rowLength_nil, add_zero]
      · rfl
      · exact hwalked
      · linarith
    | cons s' rest =>
      rw [advance]
      split
      · next hlt =>
        rw [rowLength_cons, ← add_assoc] at htarget
        obtain ⟨passed, s'', rest', hrow, hadvance, hle, hreach⟩ :=
          ih (List.cons_ne_nil _ _) hlt.le htarget
        refine ⟨s :: passed, s'', rest', ?_, ?_, ?_, ?_⟩
        · rw [hrow, List.cons_append]
        · rw [hadvance, rowLength_cons, add_assoc]
        · rwa [rowLength_cons, ← add_assoc]
        · rwa [rowLength_cons, ← add_assoc]
      · next hge =>
        refine ⟨[], s, s' :: rest, rfl, ?_, ?_, ?_⟩ <;> rw [rowLength_nil, add_zero]
        · exact hwalked
        · linarith [not_lt.1 hge]

/-- The points sampled at rising targets are those reached there. -/
theorem forall₂_sample {walked : ℝ} {targets : List ℝ} (hsegments : segments ≠ [])
    (hrising : targets.Pairwise (· ≤ ·))
    (htargets : ∀ target ∈ targets, walked ≤ target ∧ target ≤ walked + rowLength segments) :
    List.Forall₂ (fun target p => At segments (target - walked) p) targets
      (sample segments walked targets) := by
  induction targets generalizing segments walked with
  | nil => exact .nil
  | cons target targets ih =>
    obtain ⟨hle, hrising⟩ := List.pairwise_cons.1 hrising
    obtain ⟨⟨hwalked, hreach⟩, htargets⟩ := List.forall_mem_cons.1 htargets
    obtain ⟨passed, s, rest, rfl, hadvance, hpassed, hwithin⟩ :=
      exists_advance_eq hsegments hwalked hreach
    -- From here on the segments that are passed are left out.
    have hleft {d : ℝ} {p : Vec3 ℝ} (h : At (s :: rest) (d - (walked + rowLength passed)) p) :
        At (passed ++ s :: rest) (d - walked) p := by
      have := h.append passed
      rwa [← sub_sub, add_sub_cancel] at this
    rw [sample, hadvance]
    refine .cons (hleft (at_pointAt (sub_nonneg.2 hpassed) hwithin rest)) ?_
    refine (ih (List.cons_ne_nil _ _) hrising fun u hu => ⟨hpassed.trans (hle u hu), ?_⟩).imp
      fun _ _ => hleft
    rw [add_assoc, ← rowLength_append]
    exact (htargets u hu).2

/-! ## Resampling -/

/-- The length of a line through points, back to the first if it is closed. -/
noncomputable def perimeter (points : List (Vec3 ℝ)) (closed : Bool) : ℝ :=
  rowLength (steps closed points)

/-- The distance along a line from one to the next of equally spaced points. -/
noncomputable def spacing (points : List (Vec3 ℝ)) (closed : Bool) (count : ℕ) : ℝ :=
  if closed then perimeter points closed / count else perimeter points closed / (count - 1)

variable {points : List (Vec3 ℝ)} {closed : Bool} {count : ℕ}

/-- A line with a length is resampled at multiples of the spacing. -/
theorem resample_eq_sample (hcount : 2 ≤ count) (hne : points.length ≠ count)
    (hpos : 0 < perimeter points closed) : resample points closed count =
      sample (steps closed points) 0
        ((List.range count).map fun k : ℕ => k * spacing points closed count) := by
  have hsum : Scalar.sum ((steps closed points).map fun s => s.1.distance s.2) =
      perimeter points closed := Scalar.sum_eq_sum _
  have hparts : perimeter points closed / ((if closed then count else count - 1 : ℕ) : ℝ) =
      spacing points closed count := by
    rw [spacing]
    split
    · rfl
    · rw [Nat.cast_sub (Nat.le_of_succ_le hcount), Nat.cast_one]
  rw [resample, if_neg hne]
  change (if Scalar.sum ((steps closed points).map fun s => s.1.distance s.2) ≤ (0.0 : ℝ) then _
    else _) = _
  rw [hsum, Scalar.zero_eq, if_neg hpos.not_ge, ← hparts]
  exact congrArg _ (List.map_congr_left fun k _ => mul_comm _ _)

/-- The line is divided by the spacing into as many parts as points, or one less if it is open. -/
theorem mul_spacing_eq (hcount : 2 ≤ count) :
    (if closed then (count : ℝ) else count - 1) * spacing points closed count =
      perimeter points closed := by
  have hcount' : (2 : ℝ) ≤ count := Nat.ofNat_le_cast.2 hcount
  rw [spacing]
  split
  · exact mul_div_cancel₀ _ (by linarith)
  · exact mul_div_cancel₀ _ (by linarith)

/-- Equally spaced points of a line with a length are apart along it. -/
theorem spacing_pos (hcount : 2 ≤ count) (hpos : 0 < perimeter points closed) :
    0 < spacing points closed count := by
  have hcount' : (2 : ℝ) ≤ count := Nat.ofNat_le_cast.2 hcount
  rw [spacing]
  split
  · exact div_pos hpos (by linarith)
  · exact div_pos hpos (by linarith)

/-- No multiple of the spacing that is asked for lies beyond the line. -/
theorem mul_spacing_le (hcount : 2 ≤ count) (hpos : 0 < perimeter points closed) {k : ℕ}
    (hk : k < count) : k * spacing points closed count ≤ perimeter points closed := by
  have hk' : (k : ℝ) + 1 ≤ count := by exact_mod_cast hk
  rw [← mul_spacing_eq hcount]
  refine mul_le_mul_of_nonneg_right ?_ (spacing_pos hcount hpos).le
  split <;> linarith

/-- The points to which a line is resampled are reached at multiples of the spacing. -/
theorem forall₂_resample (hcount : 2 ≤ count) (hne : points.length ≠ count)
    (hpos : 0 < perimeter points closed) :
    List.Forall₂ (fun (k : ℕ) p => At (steps closed points) (k * spacing points closed count) p)
      (List.range count) (resample points closed count) := by
  have hspacing := spacing_pos hcount hpos
  have hsegments : steps closed points ≠ [] := by
    intro hnil
    rw [perimeter, hnil, rowLength_nil] at hpos
    exact lt_irrefl _ hpos
  have hrising : ((List.range count).map fun k : ℕ => k * spacing points closed count).Pairwise
      (· ≤ ·) := by
    refine List.pairwise_map.2 (List.pairwise_lt_range.imp fun {i j} hlt => ?_)
    exact mul_le_mul_of_nonneg_right (Nat.cast_le.2 hlt.le) hspacing.le
  have hwithin : ∀ target ∈ (List.range count).map fun k : ℕ => k * spacing points closed count,
      0 ≤ target ∧ target ≤ 0 + rowLength (steps closed points) := by
    refine List.forall_mem_map.2 fun k hk => ⟨mul_nonneg k.cast_nonneg hspacing.le, ?_⟩
    rw [zero_add]
    exact mul_spacing_le hcount hpos (List.mem_range.1 hk)
  rw [resample_eq_sample hcount hne hpos]
  have hsample := List.forall₂_map_left_iff.1 (forall₂_sample hsegments hrising hwithin)
  refine hsample.imp fun k p h => ?_
  rwa [sub_zero] at h

/-- An open line with a length has a first segment. -/
theorem exists_eq_cons_cons (hpos : 0 < perimeter points false) :
    ∃ x y rest, points = x :: y :: rest := by
  match points, hpos with
  | [], hpos => exact absurd hpos (lt_irrefl _)
  | [_], hpos => exact absurd hpos (lt_irrefl _)
  | x :: y :: rest, _ => exact ⟨x, y, rest, rfl⟩

/-- The last point of an open line is reached after all of it. -/
theorem at_perimeter (x y : Vec3 ℝ) (rest : List (Vec3 ℝ)) :
    At (steps false (x :: y :: rest)) (perimeter (x :: y :: rest) false)
      ((y :: rest).getLast (List.cons_ne_nil y rest)) := by
  have hconcat : x :: y :: rest =
      (x :: (y :: rest).dropLast) ++ [(y :: rest).getLast (List.cons_ne_nil y rest)] := by
    rw [List.cons_append, List.dropLast_append_getLast]
  rw [perimeter, hconcat, steps_false_concat (List.cons_ne_nil _ _)]
  exact .finish _ _

/-- A line with a length is resampled to as many points as asked for. They are the points reached
    along the line, closed or open, at the multiples of the spacing, which rise; and an open line
    keeps its ends. -/
theorem resample_arcLength (hcount : 2 ≤ count) (hne : points.length ≠ count)
    (hpos : 0 < perimeter points closed) :
    (resample points closed count).length = count ∧
    (∀ k < count, ∀ p, (resample points closed count)[k]? = some p ↔
      At (steps closed points) (k * spacing points closed count) p) ∧
    (StrictMono fun k : ℕ => k * spacing points closed count) ∧
    (closed = false → (resample points closed count).head? = points.head? ∧
      (resample points closed count).getLast? = points.getLast?) := by
  have hreached := forall₂_resample hcount hne hpos
  have hlength : (resample points closed count).length = count := by
    rw [← hreached.length_eq, List.length_range]
  have hat : ∀ k < count, ∀ p, (resample points closed count)[k]? = some p ↔
      At (steps closed points) (k * spacing points closed count) p := by
    intro k hk p
    have hk' : k < (resample points closed count).length := hlength.symm ▸ hk
    have hpoint := hreached.get (List.length_range.symm ▸ hk) hk'
    rw [List.get_eq_getElem, List.get_eq_getElem, List.getElem_range] at hpoint
    rw [List.getElem?_eq_getElem hk', Option.some.injEq]
    refine ⟨?_, fun hp => hpoint.unique (isChain_steps closed points) hp⟩
    rintro rfl
    exact hpoint
  refine ⟨hlength, hat, ?_, ?_⟩
  · exact Nat.strictMono_cast.mul_const (spacing_pos hcount hpos)
  · rintro rfl
    obtain ⟨x, y, rest, rfl⟩ := exists_eq_cons_cons hpos
    constructor
    · rw [List.head?_eq_getElem?, List.head?_cons, hat 0 (by omega), Nat.cast_zero, zero_mul]
      exact .start (x, y) _
    · have hlast : ((count - 1 : ℕ) : ℝ) * spacing (x :: y :: rest) false count =
          perimeter (x :: y :: rest) false := by
        rw [← mul_spacing_eq hcount, if_neg Bool.false_ne_true, Nat.cast_sub (by omega),
          Nat.cast_one]
      rw [List.getLast?_eq_getElem?, hlength, List.getLast?_cons_cons,
        List.getLast?_eq_some_getLast (List.cons_ne_nil y rest), hat _ (by omega), hlast]
      exact at_perimeter x y rest

end Sweep

end Solids

/-! ## A bent line -/

namespace Solids

attribute [local instance] Session.coarseReading

/-- An open line with a corner in its middle, whose first point is given twice. -/
noncomputable def hook : List (Vec3 ℝ) := [⟨0, 0, 0⟩, ⟨0, 0, 0⟩, ⟨1, 0, 0⟩, ⟨1, 1, 0⟩]

/-- Three points of the hook at equal distances along it are its ends and the corner. -/
theorem Sweep.resample_arcLength_hook : hook.length ≠ 3 ∧ perimeter hook false = 2 ∧
    resample hook false 3 = [⟨0, 0, 0⟩, ⟨1, 0, 0⟩, ⟨1, 1, 0⟩] := by
  have hunit {p q : Vec3 ℝ} (h : (p - q).lengthSq = 1) : p.distance q = 1 :=
    (congrArg Real.sqrt h).trans Real.sqrt_one
  have hfirst : Vec3.distance (⟨0, 0, 0⟩ : Vec3 ℝ) ⟨1, 0, 0⟩ = 1 :=
    hunit (by norm_num [Vec3.lengthSq_eq, Vec3.sub_eq])
  have hsecond : Vec3.distance (⟨1, 0, 0⟩ : Vec3 ℝ) ⟨1, 1, 0⟩ = 1 :=
    hunit (by norm_num [Vec3.lengthSq_eq, Vec3.sub_eq])
  have hperimeter : perimeter hook false = 2 := by
    change Vec3.distance _ _ + (Vec3.distance _ _ + (Vec3.distance _ _ + 0)) = (2 : ℝ)
    rw [Vec3.distance_self, hfirst, hsecond]
    norm_num
  have hpos : 0 < perimeter hook false := hperimeter.symm ▸ two_pos
  have hne : hook.length ≠ 3 := by decide
  obtain ⟨hlength, hat, -, hends⟩ := resample_arcLength (by decide : 2 ≤ 3) hne hpos
  obtain ⟨hhead, hlast⟩ := hends rfl
  have hmiddle : (resample hook false 3)[1]? = some ⟨1, 0, 0⟩ := by
    have hspacing : ((1 : ℕ) : ℝ) * spacing hook false 3 =
        Vec3.distance (⟨0, 0, 0⟩ : Vec3 ℝ) ⟨0, 0, 0⟩ +
          (Vec3.distance (⟨0, 0, 0⟩ : Vec3 ℝ) ⟨1, 0, 0⟩ + 0) := by
      rw [spacing, if_neg Bool.false_ne_true, hperimeter, Vec3.distance_self, hfirst]
      norm_num
    -- The corner is the start of the last segment.
    rw [hat 1 (by decide), hspacing]
    exact .beyond (.beyond (.start _ _))
  obtain ⟨p, q, r, hresample⟩ := List.length_eq_three.1 hlength
  rw [hresample] at hhead hlast hmiddle ⊢
  cases hhead
  cases hmiddle
  cases hlast
  exact ⟨hne, hperimeter, rfl⟩

end Solids
