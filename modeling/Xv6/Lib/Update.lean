import Mathlib.Logic.Function.Basic

/- A function with one value replaced. -/
namespace Update

open Function

variable {A B C : Type} [DecidableEq A] {f : A → B} {a : A} {new : B}

theorem rel {R : B → B → Prop} (own : R (f a) new) (refl : ∀ b, R b b) (x : A) :
    R (f x) (update f a new x) := by
  rw [update_apply]
  split
  · rename_i here
    rw [here]
    exact own
  · exact refl _

theorem same (field : B → C) (own : field new = field (f a)) (x : A) :
    field (update f a new x) = field (f x) :=
  rel (R := fun old new => field new = field old) own (fun _ => rfl) x

end Update
