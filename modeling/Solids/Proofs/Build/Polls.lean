import Solids.Proofs.Build.Coherent
import Solids.Proofs.Build.Course

/-!
# Polls when nothing is left to do

A build of a finished tree changes nothing, but it still goes through the parts that are drawn below
the root (`Node.drawnBelow`), and asks the probe before each. So it is nothing but as many polls as
there are such parts, one after another until the probe says to stop (`Site.ask`,
`Node.build_of_finished`).
-/

namespace Solids

variable {α ω : Type}

/-! ## Polls -/

namespace Site

variable {probe : Nat → Bool}

/-- The probe asked up to a number of times, until it says to stop; tells whether it never did. -/
def ask (probe : Nat → Bool) : Nat → Site α ω → Bool × Site α ω
  | 0, s => (true, s)
  | k + 1, s =>
    if probe s.polls then (false, { s with polls := s.polls + 1 })
    else ask probe k { s with polls := s.polls + 1 }

/-- Polls after others are made if none of those said to stop. -/
theorem ask_add (k l : Nat) (s : Site α ω) :
    s.ask probe (k + l) =
      if (s.ask probe k).1 then (s.ask probe k).2.ask probe l else s.ask probe k := by
  induction k generalizing s with
  | zero => simp only [ask, Nat.zero_add, if_true]
  | succ k ih =>
    rw [Nat.succ_add, ask, ask]
    split
    · rfl
    · exact ih _

/-- None of the polls said to stop exactly if the probe says so at none of their numbers. -/
theorem ask_fst_iff (k : Nat) (s : Site α ω) :
    (s.ask probe k).1 = true ↔ ∀ i < k, probe (s.polls + i) = false := by
  induction k generalizing s with
  | zero => simp [ask]
  | succ k ih =>
    rw [ask]
    split
    · next hstop =>
      refine ⟨fun h => absurd h Bool.false_ne_true, fun h => ?_⟩
      exact absurd (hstop.symm.trans (h 0 k.succ_pos)) Bool.true_eq_false.mp
    · next hgo =>
      rw [ih, Nat.forall_lt_succ_left]
      simp only [Nat.add_zero, Bool.not_eq_true] at hgo ⊢
      simp only [hgo, true_and, Nat.add_assoc, Nat.add_comm 1]

/-- Polls leave the cache as it is. -/
@[simp] theorem ask_cache (k : Nat) (s : Site α ω) : (s.ask probe k).2.cache = s.cache := by
  induction k generalizing s with
  | zero => rfl
  | succ k ih =>
    rw [ask]
    split
    · rfl
    · exact ih _

end Site

namespace Node

/-! ## Drawn parts -/

mutual

/-- The part and all that are drawn with it, before its later siblings. -/
def drawnParts : Node α → List (Node α)
  | n@{ kind, children, .. } => n :: if kind.rendersChildren then drawnPartsOfAll children else []

/-- The parts that are drawn with the trees of a list. -/
def drawnPartsOfAll : List (Node α) → List (Node α)
  | [] => []
  | n :: ns => n.drawnParts ++ drawnPartsOfAll ns

end

/-- The parts that are drawn below the one at the root. -/
def drawnBelow (n : Node α) : List (Node α) :=
  if n.kind.rendersChildren then drawnPartsOfAll n.children else []

/-- What is drawn with a part is the part and what is drawn below it. -/
theorem drawnParts_eq (n : Node α) : n.drawnParts = n :: n.drawnBelow := by
  cases n
  rw [drawnParts, drawnBelow]

/-! ## Builds that have nothing to do -/

variable [Scalar α] {probe : Nat → Bool}

/-- A build of parts is nothing but polls if that of each is. -/
theorem buildAll_eq_ask {ns : List (Node α)}
    (h : ∀ n ∈ ns, ∀ s : Site α ω, n.build probe s =
      .ok ((s.ask probe n.drawnBelow.length).1, n, (s.ask probe n.drawnBelow.length).2))
    (s : Site α ω) : buildAll probe ns s =
      .ok ((s.ask probe (drawnPartsOfAll ns).length).1, ns,
        (s.ask probe (drawnPartsOfAll ns).length).2) := by
  induction ns generalizing s with
  | nil =>
    rw [buildAll, drawnPartsOfAll]
    rfl
  | cons n ns ih =>
    obtain ⟨hn, hns⟩ := List.forall_mem_cons.1 h
    rw [buildAll, drawnPartsOfAll, drawnParts_eq, List.cons_append, List.length_cons,
      List.length_append, Site.ask]
    dsimp only
    split
    · rfl
    · rw [hn, Site.ask_add]
      cases hdone : (Site.ask probe n.drawnBelow.length { s with polls := s.polls + 1 }).1 with
      | false => rw [if_neg Bool.false_ne_true, hdone]; rfl
      | true =>
        rw [if_pos rfl]
        change (buildAll probe ns _ >>= _) = _
        rw [ih hns]
        rfl

/-- A build of a finished tree is nothing but a poll before each part that is drawn below the
    root. -/
theorem build_of_finished {n : Node α} (h : n.Finished) (s : Site α ω) :
    n.build probe s =
      .ok ((s.ask probe n.drawnBelow.length).1, n, (s.ask probe n.drawnBelow.length).2) := by
  induction h generalizing s with
  | @intro n hbuilt _ ih =>
    rw [build_of_built hbuilt, buildDrawn, drawnBelow]
    split
    · next hrenders =>
      rw [buildAll_eq_ask (fun c hc => ih hrenders c hc) s]
      cases n
      rfl
    · rfl

end Node

end Solids
