import Mathlib.Data.Nat.Basic

/- A loop that looks at consecutive numbers until one is wanted. -/
namespace Scan

/-- The first of `count` numbers from `start` on that is wanted. -/
def first (wanted : Nat → Bool) : Nat → Nat → Option Nat
  | 0, _ => none
  | count + 1, start => if wanted start then some start else first wanted count (start + 1)

variable {wanted : Nat → Bool}

theorem first_eq_some {count start found : Nat} (stops : first wanted count start = some found) :
    start ≤ found ∧ found < start + count ∧ wanted found = true ∧
      ∀ i, start ≤ i → i < found → wanted i = false := by
  induction count generalizing start with
  | zero => cases stops
  | succ count ih =>
    unfold first at stops
    split at stops
    · rename_i here
      cases stops
      exact ⟨Nat.le_refl _, by omega, here, by omega⟩
    rename_i here
    obtain ⟨after, bound, good, earlier⟩ := ih stops
    refine ⟨by omega, by omega, good, fun i lower upper => ?_⟩
    by_cases same : i = start
    · subst same
      simpa using here
    · exact earlier i (by omega) upper

theorem first_eq_none {count start : Nat} (stops : first wanted count start = none) :
    ∀ i, start ≤ i → i < start + count → wanted i = false := by
  induction count generalizing start with
  | zero => omega
  | succ count ih =>
    unfold first at stops
    split at stops
    · cases stops
    rename_i here
    intro i lower upper
    by_cases same : i = start
    · subst same
      simpa using here
    · exact ih stops i (by omega) (by omega)

end Scan
