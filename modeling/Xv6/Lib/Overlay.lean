import Mathlib.Data.List.Basic

/- A growable array, and writing at an offset not behind its end. -/
namespace Overlay

open List

variable {A : Type}

/-- `values` from position `off` on; the array grows if they reach beyond its end. -/
def overlay (file : List A) (off : Nat) (values : List A) : List A :=
  file.take off ++ values ++ file.drop (off + values.length)

variable {file : List A} {off : Nat}

section

variable (within : off ≤ file.length)
include within

theorem length_overlay (values : List A) :
    (overlay file off values).length = max file.length (off + values.length) := by
  simp only [overlay, length_append, length_take, length_drop]
  omega

theorem getElem?_overlay (values : List A) (i : Nat) :
    (overlay file off values)[i]? =
      if off ≤ i ∧ i < off + values.length then values[i - off]? else file[i]? := by
  have taken : (file.take off).length = off := by
    rw [length_take]
    omega
  unfold overlay
  by_cases first : i < off
  · rw [if_neg (by omega), append_assoc, getElem?_append_left (by omega),
      getElem?_take_of_lt first]
  by_cases second : i < off + values.length
  · rw [if_pos ⟨by omega, second⟩, append_assoc, getElem?_append_right (by omega), taken,
      getElem?_append_left (by omega)]
  · rw [if_neg (by omega), getElem?_append_right
      (by simp only [length_append, taken]; omega), getElem?_drop]
    congr 1
    simp only [length_append, taken]
    omega

@[simp] theorem overlay_nil : overlay file off [] = file := by
  apply ext_getElem?
  intro i
  rw [getElem?_overlay within, if_neg (by simp only [length_nil]; omega)]

theorem overlay_append (first second : List A) :
    overlay (overlay file off first) (off + first.length) second =
      overlay file off (first ++ second) := by
  apply ext_getElem?
  intro i
  have reaches : off + first.length ≤ (overlay file off first).length := by
    rw [length_overlay within]
    omega
  rw [getElem?_overlay reaches, getElem?_overlay within, getElem?_overlay within, length_append]
  by_cases early : i < off + first.length
  · rw [if_neg (by omega)]
    by_cases lower : off ≤ i
    · rw [if_pos ⟨lower, early⟩, if_pos ⟨lower, by omega⟩, getElem?_append_left (by omega)]
    · rw [if_neg (by omega), if_neg (by omega)]
  · by_cases upper : i < off + first.length + second.length
    · rw [if_pos ⟨by omega, upper⟩, if_pos ⟨by omega, by omega⟩, getElem?_append_right (by omega)]
      congr 1
      omega
    · rw [if_neg (by omega), if_neg (by omega), if_neg (by omega)]

/-- Reading back what was written. -/
theorem take_drop_overlay (values : List A) :
    ((overlay file off values).drop off).take values.length = values := by
  apply ext_getElem?
  intro i
  rw [getElem?_take]
  split
  · rename_i inside
    rw [getElem?_drop, getElem?_overlay within, if_pos ⟨by omega, by omega⟩]
    congr 1
    omega
  · rename_i outside
    rw [getElem?_eq_none (by omega)]

end

end Overlay
