import Mathlib.Algebra.BigOperators.Group.Finset.Basic
import Mathlib.Algebra.Order.BigOperators.Group.Finset

/- Reference counts: a table of pointers, and the references that a computation has in hand. -/
namespace Refs

open Function List

variable {I A : Type} [DecidableEq A]

/-- The number of slots that point to `a`. -/
def refs (slots : Finset I) (table : I → Option A) (a : A) : Nat :=
  ∑ i ∈ slots, if table i = some a then 1 else 0

variable {slots : Finset I} {table : I → Option A} {i : I} {a : A}

/-- The counts are those of the table and of the references in hand. -/
def Counted (slots : Finset I) (count : A → Nat) (table : I → Option A) (held : List A) : Prop :=
  ∀ a, count a = refs slots table a + held.count a

variable {count : A → Nat} {held : List A}

theorem Counted.dup (counted : Counted slots count table held) (a : A) :
    Counted slots (update count a (count a + 1)) table (a :: held) := by
  intro b
  by_cases same : b = a
  · rw [same, update_self, count_cons_self, counted a]
    omega
  · rw [update_of_ne same, count_cons_of_ne (Ne.symm same), counted b]

theorem Counted.held_pos (counted : Counted slots count table (a :: held)) : 0 < count a := by
  have whole := counted a
  rw [count_cons_self] at whole
  omega

theorem Counted.drop (counted : Counted slots count table (a :: held)) :
    Counted slots (update count a (count a - 1)) table held := by
  intro b
  by_cases same : b = a
  · have whole := counted a
    rw [count_cons_self] at whole
    rw [same, update_self]
    omega
  · rw [update_of_ne same, counted b, count_cons_of_ne (Ne.symm same)]

theorem Counted.perm {other : List A} (counted : Counted slots count table held)
    (same : held.Perm other) : Counted slots count table other := by
  intro b
  rw [counted b, same.count_eq]

section Slots

variable [DecidableEq I]

theorem refs_split (inside : i ∈ slots) (table : I → Option A) (a : A) :
    refs slots table a = (if table i = some a then 1 else 0) + refs (slots.erase i) table a :=
  (Finset.add_sum_erase slots (fun i => if table i = some a then 1 else 0) inside).symm

theorem refs_update (inside : i ∈ slots) (new : Option A) (a : A) :
    refs slots (update table i new) a = (if new = some a then 1 else 0) +
      refs (slots.erase i) table a := by
  rw [refs_split inside, update_self]
  congr 1
  apply Finset.sum_congr rfl
  intro j mem
  rw [update_of_ne (Finset.ne_of_mem_erase mem)]

theorem refs_pos (inside : i ∈ slots) (points : table i = some a) : 0 < refs slots table a := by
  rw [refs_split inside, if_pos points]
  omega

theorem refs_eq_zero : refs slots table a = 0 ↔ ∀ i ∈ slots, table i ≠ some a := by
  constructor
  · intro none i inside points
    exact Nat.ne_of_gt (refs_pos inside points) none
  · intro none
    exact Finset.sum_eq_zero fun i inside => if_neg (none i inside)

theorem Counted.put (counted : Counted slots count table (a :: held)) (inside : i ∈ slots)
    (free : table i = none) : Counted slots count (update table i (some a)) held := by
  intro b
  have before := counted b
  rw [refs_split inside, if_neg (by rw [free]; exact nofun), count_cons] at before
  rw [refs_update inside, before]
  simp only [Option.some.injEq, beq_iff_eq]
  omega

theorem Counted.take (counted : Counted slots count table held) (inside : i ∈ slots)
    (points : table i = some a) : Counted slots count (update table i none) (a :: held) := by
  intro b
  have before := counted b
  rw [refs_split inside, points] at before
  rw [refs_update inside, if_neg nofun, before, count_cons]
  simp only [Option.some.injEq, beq_iff_eq]
  omega

/-- Without references in hand a count is zero when no slot points there. -/
theorem Counted.eq_zero (counted : Counted slots count table []) :
    count a = 0 ↔ ∀ i ∈ slots, table i ≠ some a := by
  rw [counted a, count_nil, Nat.add_zero, refs_eq_zero]

end Slots

end Refs
