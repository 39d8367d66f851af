/-!
# Members not yet seen

How many members of a list are not among those seen so far. Whoever visits members of a finite
list and never the same one twice comes to an end: each visit makes this number smaller.
-/
namespace FusionKit

variable {α : Type} [DecidableEq α]

/-- The number of members of `known` that are not in `seen`. -/
def fresh (known seen : List α) : Nat := known.countP (· ∉ seen)

/-- Seeing more leaves no more that is not seen. -/
theorem fresh_cons_le (known seen : List α) (a : α) :
    fresh known (a :: seen) ≤ fresh known seen := by
  refine List.countP_mono_left fun b _ unseen => ?_
  simp only [decide_eq_true_eq, List.mem_cons, not_or] at unseen ⊢
  exact unseen.2

/-- Seeing a member for the first time leaves fewer. -/
theorem fresh_cons_lt {known seen : List α} {a : α} (known_a : a ∈ known) (new_a : a ∉ seen) :
    fresh known (a :: seen) < fresh known seen := by
  induction known with
  | nil => cases known_a
  | cons b known ih =>
    have bound := fresh_cons_le known seen a
    unfold fresh at ih bound ⊢
    by_cases eq : b = a
    · subst eq
      simp only [List.countP_cons, List.mem_cons, true_or, not_true_eq_false, decide_false,
        Bool.false_eq_true, ↓reduceIte, new_a, not_false_eq_true, decide_true] at bound ⊢
      omega
    · have less := ih (by simpa [Ne.symm eq] using known_a)
      simp only [List.countP_cons, List.mem_cons, eq, false_or] at less ⊢
      omega

end FusionKit
