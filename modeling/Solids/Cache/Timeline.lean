/-!
# Timelines

A timeline holds keys by the tick of their last use, one to a tick, in the order of the ticks
(`Timeline`). A key is entered at its tick wherever that belongs (`Timeline.insert`); where the
tick is later than all others that is at the end (`uses_insert_of_later`).
-/

namespace Solids

/-- Keys by tick, the lowest tick first. -/
structure Timeline (κ : Type) where
  uses : List (Nat × κ) := []
  /-- The ticks rise, so no two keys have one tick. -/
  rising : uses.Pairwise fun a b => a.1 < b.1 := by simp

namespace Timeline

variable {κ : Type}

/-- A list of uses with a key entered at a tick, in place of the one that was there. -/
def place (tick : Nat) (k : κ) : List (Nat × κ) → List (Nat × κ)
  | [] => [(tick, k)]
  | use :: uses =>
    if tick < use.1 then (tick, k) :: use :: uses
    else if use.1 < tick then use :: place tick k uses
    else (tick, k) :: uses

/-- Entering a key brings in no tick but its own. -/
theorem mem_of_mem_place {tick : Nat} {k : κ} {use : Nat × κ} {uses : List (Nat × κ)}
    (h : use ∈ place tick k uses) : use = (tick, k) ∨ use ∈ uses := by
  induction uses with
  | nil => simpa [place] using h
  | cons u us ih => grind [place]

/-- The ticks still rise once a key was entered. -/
theorem rising_place {tick : Nat} {k : κ} {uses : List (Nat × κ)}
    (h : uses.Pairwise fun a b => a.1 < b.1) :
    (place tick k uses).Pairwise fun a b => a.1 < b.1 := by
  induction uses with
  | nil => simp [place]
  | cons u us ih =>
    obtain ⟨hu, hus⟩ := List.pairwise_cons.1 h
    unfold place
    split
    · next hlt =>
      refine List.pairwise_cons.2 ⟨fun v hv => ?_, h⟩
      rcases List.mem_cons.1 hv with rfl | hv
      · exact hlt
      · exact Nat.lt_trans hlt (hu v hv)
    · next hle =>
      split
      · next hlt =>
        refine List.pairwise_cons.2 ⟨fun v hv => ?_, ih hus⟩
        rcases mem_of_mem_place hv with rfl | hv
        · exact hlt
        · exact hu v hv
      · next hge =>
        have heq : u.1 = tick := Nat.le_antisymm (Nat.le_of_not_lt hle) (Nat.le_of_not_lt hge)
        exact List.pairwise_cons.2 ⟨fun v hv => heq ▸ hu v hv, hus⟩

/-- The timeline with a key entered at a tick, in place of the one that was there. -/
def insert (l : Timeline κ) (tick : Nat) (k : κ) : Timeline κ where
  uses := place tick k l.uses
  rising := rising_place l.rising

/-- The timeline without what is at a tick. -/
def erase (l : Timeline κ) (tick : Nat) : Timeline κ where
  uses := l.uses.filter fun use => use.1 ≠ tick
  rising := l.rising.filter _

/-- The timeline without its earliest use. -/
def tail (l : Timeline κ) : Timeline κ where
  uses := l.uses.tail
  rising := l.rising.tail

/-- What is entered at a tick later than all others goes to the end. -/
theorem uses_insert_of_later {l : Timeline κ} {tick : Nat} (k : κ)
    (h : ∀ use ∈ l.uses, use.1 < tick) : (l.insert tick k).uses = l.uses ++ [(tick, k)] := by
  obtain ⟨uses, rising⟩ := l
  simp only [insert]
  induction uses with
  | nil => rfl
  | cons u us ih =>
    have hu := h u List.mem_cons_self
    rw [place, if_neg (Nat.lt_asymm hu), if_pos hu,
      ih rising.tail fun use hm => h use (List.mem_cons_of_mem _ hm), List.cons_append]

/-- Two keys at one tick are one. -/
theorem eq_of_mem_of_mem {l : Timeline κ} {tick : Nat} {k k' : κ} (h : (tick, k) ∈ l.uses)
    (h' : (tick, k') ∈ l.uses) : k = k' := by
  obtain ⟨uses, rising⟩ := l
  induction uses with
  | nil => cases h
  | cons u us ih =>
    obtain ⟨hu, hus⟩ := List.pairwise_cons.1 rising
    rcases List.mem_cons.1 h with rfl | hm
    · rcases List.mem_cons.1 h' with heq | hm'
      · exact (congrArg Prod.snd heq).symm
      · exact absurd (hu _ hm') (Nat.lt_irrefl _)
    · rcases List.mem_cons.1 h' with rfl | hm'
      · exact absurd (hu _ hm) (Nat.lt_irrefl _)
      · exact ih hus hm hm'

end Timeline

end Solids
