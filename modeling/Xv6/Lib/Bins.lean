import Mathlib.Data.Finset.Card
import Mathlib.Data.Fintype.EquivFin
import Mathlib.Logic.Function.Basic

/- Items in the slots of several bins, with a level for each item that names its bin. -/
namespace Bins

open Function

/-- The live items are those in the bins, each in one slot of the bin of its level. -/
structure Placed (levels slots : Nat) (live : Nat → Prop) (level : Nat → Nat)
    (bin : Nat → Nat → Option Nat) : Prop where
  held : ∀ l i x, l < levels → i < slots → bin l i = some x → live x ∧ level x = l
  present : ∀ x, live x → level x < levels ∧ ∃ i, i < slots ∧ bin (level x) i = some x
  unique : ∀ l i j x, l < levels → i < slots → j < slots → bin l i = some x →
    bin l j = some x → i = j

variable {levels slots : Nat} {live live' : Nat → Prop} {level level' : Nat → Nat}
    {bin : Nat → Nat → Option Nat} {x i : Nat}

section

variable (placed : Placed levels slots live level bin)
include placed

theorem Placed.congr (same : ∀ x, live' x ↔ live x) (agree : ∀ x, live x → level' x = level x) :
    Placed levels slots live' level' bin := by
  constructor
  · intro l i x low inside found
    obtain ⟨lives, there⟩ := placed.held l i x low inside found
    exact ⟨(same x).mpr lives, (agree x lives).trans there⟩
  · intro x lives
    rw [same] at lives
    rw [agree x lives]
    exact placed.present x lives
  · exact placed.unique

theorem Placed.absent (missing : ∀ i, i < slots → bin (level x) i ≠ some x) : ¬ live x := by
  intro lives
  obtain ⟨_, i, inside, found⟩ := placed.present x lives
  exact missing i inside found

theorem Placed.remove (low : level x < levels) (inside : i < slots)
    (found : bin (level x) i = some x) :
    Placed levels slots (fun y => live y ∧ y ≠ x) level
      (update bin (level x) (update (bin (level x)) i none)) := by
  have kept : ∀ l j y, l < levels → j < slots →
      update bin (level x) (update (bin (level x)) i none) l j = some y →
      bin l j = some y ∧ y ≠ x := by
    intro l j y lower inside' stored
    by_cases same : l = level x
    · subst same
      rw [update_self, update_apply] at stored
      split at stored
      · cases stored
      · rename_i other
        refine ⟨stored, ?_⟩
        intro equal
        subst equal
        exact other (placed.unique _ _ _ _ low inside' inside stored found)
    · rw [update_of_ne same] at stored
      refine ⟨stored, ?_⟩
      intro equal
      subst equal
      exact same (placed.held l j y lower inside' stored).2.symm
  constructor
  · intro l j y low inside stored
    obtain ⟨before, other⟩ := kept l j y low inside stored
    obtain ⟨lives, there⟩ := placed.held l j y low inside before
    exact ⟨⟨lives, other⟩, there⟩
  · intro y ⟨lives, other⟩
    obtain ⟨low, j, inside, before⟩ := placed.present y lives
    refine ⟨low, j, inside, ?_⟩
    by_cases same : level y = level x
    · rw [same] at before
      rw [same, update_self, update_of_ne, before]
      intro equal
      subst equal
      rw [found] at before
      exact other (Option.some.inj before).symm
    · rw [update_of_ne same]
      exact before
  · intro l a b y low insideA insideB first second
    exact placed.unique l a b y low insideA insideB (kept l a y low insideA first).1
      (kept l b y low insideB second).1

theorem Placed.insert {l : Nat} (dead : ¬ live x) (low : l < levels) (inside : i < slots)
    (free : bin l i = none) :
    Placed levels slots (fun y => live y ∨ y = x) (update level x l)
      (update bin l (update (bin l) i (some x))) := by
  have kept : ∀ m j y, m < levels → j < slots →
      update bin l (update (bin l) i (some x)) m j = some y →
      (y ≠ x ∧ bin m j = some y) ∨ (y = x ∧ m = l ∧ j = i) := by
    intro m j y low inside stored
    have other : ∀ y, bin m j = some y → y ≠ x := by
      intro y before equal
      subst equal
      exact dead (placed.held m j y low inside before).1
    by_cases same : m = l
    · subst same
      rw [update_self, update_apply] at stored
      split at stored
      · rename_i here
        cases stored
        exact .inr ⟨rfl, rfl, here⟩
      · exact .inl ⟨other y stored, stored⟩
    · rw [update_of_ne same] at stored
      exact .inl ⟨other y stored, stored⟩
  constructor
  · intro m j y low inside stored
    rcases kept m j y low inside stored with ⟨other, before⟩ | ⟨equal, here, _⟩
    · obtain ⟨lives, there⟩ := placed.held m j y low inside before
      exact ⟨.inl lives, by rw [update_of_ne other]; exact there⟩
    · exact ⟨.inr equal, by rw [equal, update_self]; exact here.symm⟩
  · intro y lives
    by_cases equal : y = x
    · subst equal
      rw [update_self]
      refine ⟨low, i, inside, ?_⟩
      rw [update_self, update_self]
    obtain ⟨low, j, inside, before⟩ := placed.present y (lives.resolve_right equal)
    rw [update_of_ne equal]
    refine ⟨low, j, inside, ?_⟩
    by_cases same : level y = l
    · rw [same] at before
      rw [same, update_self, update_of_ne, before]
      intro here
      subst here
      rw [free] at before
      cases before
    · rw [update_of_ne same]
      exact before
  · intro m a b y low insideA insideB first second
    rcases kept m a y low insideA first with ⟨other, first⟩ | ⟨equal, _, first⟩
    · rcases kept m b y low insideB second with ⟨_, second⟩ | ⟨equal, _⟩
      · exact placed.unique m a b y low insideA insideB first second
      · exact absurd equal other
    · rcases kept m b y low insideB second with ⟨other, _⟩ | ⟨_, _, second⟩
      · exact absurd equal other
      · rw [first, second]

/-- With no more items than slots there is room for one that is not live. -/
theorem Placed.room (bounded : ∀ x, live x → x < slots) {l : Nat} (dead : ¬ live x)
    (small : x < slots) (low : l < levels) : ∃ i, i < slots ∧ bin l i = none := by
  by_contra full
  have holds : ∀ i : Fin slots, ∃ y : Fin slots, bin l i = some y.val := by
    intro i
    cases found : bin l i with
    | none => exact absurd ⟨i, i.isLt, found⟩ full
    | some y => exact ⟨⟨y, bounded y (placed.held l i y low i.isLt found).1⟩, rfl⟩
  choose item stored using holds
  -- distinct slots hold distinct items, so that all of them would be held
  have injective : Injective item := by
    intro a b same
    apply Fin.ext
    have second := stored b
    rw [← same] at second
    exact placed.unique l a b (item a) low a.isLt b.isLt (stored a) second
  obtain ⟨i, here⟩ := Finite.injective_iff_surjective.mp injective ⟨x, small⟩
  have held := stored i
  rw [here] at held
  exact dead (placed.held l i x low i.isLt held).1

end

/-- The number of slots of a bin that hold an item. -/
def filled (slots : Nat) (bin : Nat → Option Nat) : Nat :=
  ((Finset.range slots).filter fun i => bin i ≠ none).card

theorem filled_put {bin : Nat → Option Nat} (inside : i < slots) (free : bin i = none) :
    filled slots (update bin i (some x)) = filled slots bin + 1 := by
  have added : (Finset.range slots).filter (fun j => update bin i (some x) j ≠ none) =
      insert i ((Finset.range slots).filter fun j => bin j ≠ none) := by
    ext j
    simp only [Finset.mem_filter, Finset.mem_range, Finset.mem_insert]
    by_cases same : j = i
    · rw [same, update_self]
      simp [inside]
    · rw [update_of_ne same]
      simp [same]
  unfold filled
  rw [added, Finset.card_insert_of_notMem (by simp [free])]

theorem filled_clear {bin : Nat → Option Nat} (inside : i < slots) (held : bin i = some x) :
    filled slots (update bin i none) + 1 = filled slots bin := by
  have again : update (update bin i none) i (some x) = bin := by
    rw [update_idem, ← held, update_eq_self]
  rw [← filled_put (x := x) inside (update_self i none bin), again]

end Bins
