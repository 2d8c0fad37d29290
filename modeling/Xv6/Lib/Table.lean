import Mathlib.Logic.Function.Basic

/- Tables that are changed by stores into single entries. -/
namespace Table

open Function

variable {V : Type} {may : Nat → V → V → Prop} {first last : Nat → V}

/-- `last` comes from `first` by stores that are all allowed. -/
inductive Stores (may : Nat → V → V → Prop) (first : Nat → V) : (Nat → V) → Prop
  | none : Stores may first first
  | store {table : Nat → V} {i : Nat} {new : V} (before : Stores may first table)
      (allowed : may i (table i) new) : Stores may first (update table i new)

/-- What every store does to its entry, all of them do. -/
theorem Stores.entry {R : Nat → V → V → Prop} (stores : Stores may first last)
    (refl : ∀ i v, R i v v) (trans : ∀ i a b c, R i a b → R i b c → R i a c)
    (each : ∀ i old new, may i old new → R i old new) (i : Nat) : R i (first i) (last i) := by
  induction stores with
  | none => exact refl i _
  | @store table j new _ allowed ih =>
    by_cases here : i = j
    · rw [here] at ih ⊢
      rw [update_self]
      exact trans j _ _ _ ih (each j _ _ allowed)
    · rw [update_of_ne here]
      exact ih

end Table
