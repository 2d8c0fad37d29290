import Mathlib.Logic.Function.Basic
import Mathlib.Data.List.Basic

/- Addressed writes over a memory, applied in order: a later write to a cell wins. -/
namespace Writes

open Function

variable {A V : Type} [DecidableEq A] {writes : List (A × V)} {address : A}

def apply (memory : A → V) : List (A × V) → A → V
  | [] => memory
  | write :: rest => apply (update memory write.1 write.2) rest

@[simp] theorem apply_nil (memory : A → V) : apply memory [] = memory := rfl

@[simp] theorem apply_cons (memory : A → V) (write : A × V) (rest : List (A × V)) :
    apply memory (write :: rest) = apply (update memory write.1 write.2) rest := rfl

theorem apply_append (memory : A → V) (first second : List (A × V)) :
    apply memory (first ++ second) = apply (apply memory first) second := by
  induction first generalizing memory with
  | nil => rfl
  | cons write rest ih => exact ih _

theorem apply_snoc (memory : A → V) (writes : List (A × V)) (address : A) (value : V) :
    apply memory (writes ++ [(address, value)]) = update (apply memory writes) address value := by
  rw [apply_append]
  rfl

/-- A written cell does not depend on what the memory held before. -/
theorem apply_congr {left right : A → V}
    (same : (∃ write ∈ writes, write.1 = address) ∨ left address = right address) :
    apply left writes address = apply right writes address := by
  induction writes generalizing left right with
  | nil =>
    rcases same with ⟨write, member, _⟩ | same
    · cases member
    · exact same
  | cons write rest ih =>
    rw [apply_cons, apply_cons]
    apply ih
    by_cases here : write.1 = address
    · subst here
      exact .inr (by simp only [update_self])
    rcases same with ⟨other, member, covers⟩ | same
    · rcases List.mem_cons.mp member with rfl | member
      · exact absurd covers here
      · exact .inl ⟨other, member, covers⟩
    · refine .inr ?_
      rw [update_of_ne (Ne.symm here), update_of_ne (Ne.symm here), same]

/-- Redoing all writes over a memory where one of their cells was changed gives the same. -/
theorem apply_update_covered (memory : A → V) (value : V)
    (covered : ∃ write ∈ writes, write.1 = address) (cell : A) :
    apply (update memory address value) writes cell = apply memory writes cell := by
  apply apply_congr
  by_cases same : cell = address
  · subst same
    exact .inl covered
  · exact .inr (update_of_ne same _ _)

/-- A cell that every write to it sets to one value holds that value. -/
theorem apply_uniform {memory : A → V} {value : V}
    (uniform : ∀ write ∈ writes, write.1 = address → write.2 = value)
    (present : (∃ write ∈ writes, write.1 = address) ∨ memory address = value) :
    apply memory writes address = value := by
  induction writes generalizing memory with
  | nil =>
    rcases present with ⟨write, member, _⟩ | present
    · cases member
    · exact present
  | cons write rest ih =>
    rw [apply_cons]
    apply ih (fun next member => uniform next (List.mem_cons_of_mem _ member))
    by_cases here : write.1 = address
    · refine .inr ?_
      rw [← here, update_self]
      exact uniform write (by simp) here
    · rcases present with ⟨other, member, covers⟩ | present
      · rcases List.mem_cons.mp member with rfl | member
        · exact absurd covers here
        · exact .inl ⟨other, member, covers⟩
      · exact .inr (by rw [update_of_ne (Ne.symm here), present])

end Writes
