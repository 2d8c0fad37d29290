import Mathlib.Data.List.Rotate
import Xv6.Lib.Scan

/- A search that goes round a ring of slots from a position that it moves behind what it finds. The
slot just before the position is not looked at. -/
namespace Rotation

open List

/-- The first wanted slot from `current` on. -/
def search (wanted : Nat → Bool) (size current : Nat) : Option Nat :=
  (Scan.first (fun j => wanted ((current + j) % size)) (size - 1) 0).map
    fun j => (current + j) % size

/-- The steps from slot `a` forward to slot `b`. -/
def ahead (size a b : Nat) : Nat := if a ≤ b then b - a else size - a + b

variable {wanted : Nat → Bool} {size current a b i p : Nat}

theorem ahead_lt (first : a < size) (second : b < size) : ahead size a b < size := by
  unfold ahead
  split <;> omega

theorem ahead_self (size a : Nat) : ahead size a a = 0 := by
  unfold ahead
  rw [if_pos (Nat.le_refl a), Nat.sub_self]

theorem succ_mod (inside : p < size) : (p + 1) % size = if p + 1 < size then p + 1 else 0 := by
  split
  · exact Nat.mod_eq_of_lt ‹_›
  · rw [show p + 1 = size by omega, Nat.mod_self]

theorem add_ahead (inside : b < size) : (current + ahead size (current % size) b) % size = b := by
  have low : current % size < size := Nat.mod_lt _ (by omega)
  rw [← Nat.mod_add_mod]
  unfold ahead
  split
  · rw [Nat.mod_eq_of_lt (by omega)]
    omega
  · rw [Nat.mod_eq_sub_mod (by omega), Nat.mod_eq_of_lt (by omega)]
    omega

theorem ahead_add {j : Nat} (small : j < size) : ahead size (current % size)
    ((current + j) % size) = j := by
  have low : current % size < size := Nat.mod_lt _ (by omega)
  rw [← Nat.mod_add_mod]
  generalize current % size = c at low ⊢
  unfold ahead
  by_cases wraps : c + j < size
  · rw [Nat.mod_eq_of_lt wraps, if_pos (by omega)]
    omega
  · rw [Nat.mod_eq_sub_mod (by omega), Nat.mod_eq_of_lt (by omega), if_neg (by omega)]
    omega

/-- The search takes the first wanted slot, and looks at all slots but the last. -/
theorem search_eq_some (found : search wanted size current = some p) :
    p < size ∧ wanted p = true ∧ ahead size (current % size) p < size - 1 ∧
      ∀ b < size, wanted b = true →
        ahead size (current % size) p ≤ ahead size (current % size) b := by
  obtain ⟨j, stops, rfl⟩ := Option.map_eq_some_iff.mp found
  obtain ⟨_, inside, good, earlier⟩ := Scan.first_eq_some stops
  have small : j < size := by omega
  refine ⟨Nat.mod_lt _ (by omega), good, ?_, ?_⟩
  · rw [ahead_add small]
    omega
  intro b within isWanted
  rw [ahead_add small]
  by_contra before
  have skipped := earlier (ahead size (current % size) b) (Nat.zero_le _) (by omega)
  rw [add_ahead within, isWanted] at skipped
  cases skipped

theorem search_eq_none (nothing : search wanted size current = none) :
    ∀ b < size, wanted b = true → ahead size (current % size) b = size - 1 := by
  intro b within isWanted
  have low := ahead_lt (a := current % size) (Nat.mod_lt _ (by omega)) within
  by_contra inside
  have skipped := Scan.first_eq_none (Option.map_eq_none_iff.mp nothing)
    (ahead size (current % size) b) (Nat.zero_le _) (by omega)
  rw [add_ahead within, isWanted] at skipped
  cases skipped

/-- The wanted slots that the position has passed since it left `p` were taken after turn `i`. -/
def Passed (wanted : Nat → Bool) (size : Nat) (position : Nat → Nat) (taken : Nat → Option Nat)
    (i p n : Nat) : Prop :=
  ∀ b < size, wanted b = true →
    ahead size ((p + 1) % size) b < ahead size ((p + 1) % size) (position n % size) →
    ∃ m, i < m ∧ m < n ∧ taken m = some b

/-- All other wanted slots were taken. -/
def Around (wanted : Nat → Bool) (size : Nat) (taken : Nat → Option Nat) (i p n : Nat) : Prop :=
  ∀ b < size, wanted b = true → b ≠ p → ∃ m, i < m ∧ m < n ∧ taken m = some b

variable {position : Nat → Nat} {taken : Nat → Option Nat} {n : Nat}

theorem Around.succ (around : Around wanted size taken i p n) :
    Around wanted size taken i p (n + 1) := by
  intro b within isWanted other
  obtain ⟨m, after, earlier, there⟩ := around b within isWanted other
  exact ⟨m, after, by omega, there⟩

/-- When the search comes back to `p` it has been everywhere. -/
theorem around_of_passed (passed : Passed wanted size position taken i p n)
    (again : search wanted size (position n) = some p) : Around wanted size taken i p n := by
  intro b within isWanted other
  obtain ⟨inside, _, _, least⟩ := search_eq_some again
  have low : position n % size < size := Nat.mod_lt _ (by omega)
  apply passed b within isWanted
  have nearest := least b within isWanted
  rw [succ_mod inside]
  unfold ahead at nearest ⊢
  split <;> split <;> split <;> split at nearest <;> split at nearest <;> omega

/-- A wanted slot that is passed with the step to `r` was passed before, if it is not `r`. The slot
`p` is wanted too, so that the search does not go beyond it. -/
theorem passed_before {r : Nat} (own : wanted p = true) (inside : p < size) (apart : r ≠ p)
    (found : search wanted size current = some r) (within : b < size) (isWanted : wanted b = true)
    (other : b ≠ r)
    (before : ahead size ((p + 1) % size) b < ahead size ((p + 1) % size) ((r + 1) % size)) :
    ahead size ((p + 1) % size) b < ahead size ((p + 1) % size) (current % size) := by
  obtain ⟨there, _, near, least⟩ := search_eq_some found
  have low : current % size < size := Nat.mod_lt _ (by omega)
  have first := least b within isWanted
  have atP := least p inside own
  generalize current % size = c at *
  rw [succ_mod inside] at before ⊢
  rw [succ_mod there] at before
  unfold ahead at first atP near before ⊢
  grind

section Turns

/- The slots taken one after the other while the wanted ones stay the same. A turn that takes
nothing leaves the position. -/
variable (moves : ∀ n p, taken n = some p →
    search wanted size (position n) = some p ∧ position (n + 1) = p + 1)
  (rests : ∀ n, taken n = none → position (n + 1) = position n)
include moves rests

theorem passed_step (own : wanted p = true) (inside : p < size) (late : i < n)
    (passed : Passed wanted size position taken i p n) :
    Around wanted size taken i p (n + 1) ∨ Passed wanted size position taken i p (n + 1) := by
  cases turn : taken n with
  | none =>
    refine .inr fun b within isWanted before => ?_
    rw [rests n turn] at before
    obtain ⟨m, after, earlier, there⟩ := passed b within isWanted before
    exact ⟨m, after, by omega, there⟩
  | some r =>
    obtain ⟨found, next⟩ := moves n r turn
    by_cases same : r = p
    · rw [same] at found
      exact .inl (around_of_passed passed found).succ
    refine .inr fun b within isWanted before => ?_
    by_cases here : b = r
    · exact ⟨n, late, Nat.lt_succ_self n, by rw [here, turn]⟩
    · rw [next] at before
      obtain ⟨m, after, earlier, there⟩ :=
        passed b within isWanted (passed_before own inside same found within isWanted here before)
      exact ⟨m, after, by omega, there⟩

/-- Between two times that a slot is taken every other wanted slot is taken. -/
theorem taken_between {j : Nat} (first : taken i = some p) (again : taken j = some p)
    (later : i < j) (within : b < size) (isWanted : wanted b = true) (other : b ≠ p) :
    ∃ m, i < m ∧ m < j ∧ taken m = some b := by
  obtain ⟨found, next⟩ := moves i p first
  obtain ⟨inside, own, _, _⟩ := search_eq_some found
  have start : Passed wanted size position taken i p (i + 1) := by
    intro c _ _ before
    rw [next, ahead_self] at before
    omega
  have run : ∀ n, Around wanted size taken i p (i + 1 + n) ∨
      Passed wanted size position taken i p (i + 1 + n) := by
    intro n
    induction n with
    | zero => exact .inr start
    | succ n ih =>
      have late : i < i + 1 + n := by omega
      rcases ih with around | passed
      · exact .inl around.succ
      · exact passed_step moves rests own inside late passed
  have reached := run (j - (i + 1))
  rw [show i + 1 + (j - (i + 1)) = j by omega] at reached
  rcases reached with around | passed
  · exact around b within isWanted other
  · exact around_of_passed passed (moves j p again).1 b within isWanted other

end Turns

section Rings

variable {c q : Nat}

/-- All slots in the order of a search that begins behind slot `c`. -/
def ring (size c : Nat) : List Nat := (List.range' 1 size).map fun j => (c + j) % size

theorem ring_eq_rotate : ring size c = (List.range size).rotate (c + 1) := by
  apply ext_getElem
  · rw [ring, length_map, length_range', length_rotate, length_range]
  · intro j _ _
    simp only [ring, getElem_map, getElem_range', getElem_rotate, getElem_range,
      length_range, Nat.one_mul, Nat.add_comm, Nat.add_left_comm]

theorem ring_perm : (ring size c).Perm (List.range size) := by
  rw [ring_eq_rotate]
  exact rotate_perm _ _

/-- The search that begins behind a slot meets the slots in the same order, and that slot last. -/
theorem ring_of_split {before after : List Nat} (split : ring size c = before ++ q :: after) :
    ring size q = after ++ (before ++ [q]) := by
  have place : (c + 1 + before.length) % size = q := by
    have here : (ring size c)[before.length]? = some q := by
      rw [split, getElem?_append_right (Nat.le_refl _), Nat.sub_self]
      rfl
    rw [ring, getElem?_map] at here
    obtain ⟨j, found, rfl⟩ := Option.map_eq_some_iff.mp here
    obtain ⟨_, rfl⟩ := List.getElem?_eq_some_iff.mp found
    rw [getElem_range', Nat.one_mul, Nat.add_assoc]
  have turn := rotate_mod (List.range size) (c + 1 + before.length)
  rw [length_range, place] at turn
  calc ring size q = (ring size c).rotate (before.length + 1) := by
        rw [ring_eq_rotate, ring_eq_rotate, rotate_rotate, ← Nat.add_assoc, ← rotate_rotate,
          ← rotate_rotate, turn]
    _ = (before ++ [q] ++ after).rotate (before ++ [q]).length := by
        rw [split, append_assoc, length_append]
        rfl
    _ = after ++ (before ++ [q]) := rotate_append_length_eq _ _
end Rings

end Rotation
