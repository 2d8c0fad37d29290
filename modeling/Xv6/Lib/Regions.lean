import Mathlib.Data.Finset.Card
import Mathlib.Logic.Function.Basic

/- Regions of one length below a limit. Each place for a region holds the first page of one, or
none. -/
namespace Regions

open Function

variable {R : Type} {len top : Nat} {base : R → Option Nat} {r s t : R} {a v : Nat}

/-- Page `v` is in the region at place `r`. -/
def Has (len : Nat) (base : R → Option Nat) (r : R) (v : Nat) : Prop :=
  ∃ a, base r = some a ∧ a ≤ v ∧ v < a + len

structure Apart (len top : Nat) (base : R → Option Nat) : Prop where
  below : ∀ r a, base r = some a → a + len ≤ top
  disjoint : ∀ r s a b, base r = some a → base s = some b → r ≠ s → a + len ≤ b ∨ b + len ≤ a

theorem Apart.unique (apart : Apart len top base) (here : Has len base r v)
    (there : Has len base s v) :
    r = s := by
  obtain ⟨a, isA, _, _⟩ := here
  obtain ⟨b, isB, _, _⟩ := there
  by_contra different
  have away := apart.disjoint r s a b isA isB different
  omega

theorem Apart.lt_top (apart : Apart len top base) (here : Has len base r v) : v < top := by
  obtain ⟨a, isA, _, _⟩ := here
  have below := apart.below r a isA
  omega

theorem Apart.limit (apart : Apart len top base) {limit : Nat}
    (below : ∀ r a, base r = some a → a + len ≤ limit) : Apart len limit base :=
  ⟨below, apart.disjoint⟩

theorem not_has_none (empty : base r = none) : ¬ Has len base r v := by
  rintro ⟨a, isA, _⟩
  rw [empty] at isA
  cases isA

variable [DecidableEq R]

theorem update_of_some {b : Nat} {x : Option Nat} (held : update base r x s = some b) :
    s = r ∧ x = some b ∨ s ≠ r ∧ base s = some b := by
  rw [update_apply] at held
  split at held
  · rename_i here
    exact .inl ⟨here, held⟩
  · rename_i other
    exact .inr ⟨other, held⟩

/-- The region at place `r` goes to place `s`. -/
def move (base : R → Option Nat) (r s : R) : R → Option Nat :=
  update (update base r none) s (base r)

/-- A region of the new map is one of the old map. -/
theorem move_of_some {b : Nat} (held : move base r s t = some b) :
    t = s ∧ base r = some b ∨ t ≠ s ∧ t ≠ r ∧ base t = some b := by
  rcases update_of_some held with ⟨here, same⟩ | ⟨other, same⟩
  · exact .inl ⟨here, same⟩
  · rcases update_of_some same with ⟨_, impossible⟩ | ⟨away, same⟩
    · cases impossible
    · exact .inr ⟨other, away, same⟩

theorem Apart.move (apart : Apart len top base) : Apart len top (move base r s) := by
  constructor
  · intro t b held
    rcases move_of_some held with ⟨_, same⟩ | ⟨_, _, same⟩
    · exact apart.below r b same
    · exact apart.below t b same
  intro t u b c held held' different
  rcases move_of_some held with ⟨isS, same⟩ | ⟨_, notR, same⟩
  · rcases move_of_some held' with ⟨isS', _⟩ | ⟨_, notR', same'⟩
    · exact absurd (isS.trans isS'.symm) different
    · exact apart.disjoint r u b c same same' (Ne.symm notR')
  · rcases move_of_some held' with ⟨_, same'⟩ | ⟨_, _, same'⟩
    · exact apart.disjoint t r b c same same' notR
    · exact apart.disjoint t u b c same same' different

theorem has_move : Has len (move base r s) t v ↔
    t = s ∧ Has len base r v ∨ t ≠ s ∧ t ≠ r ∧ Has len base t v := by
  constructor
  · rintro ⟨b, held, lower, upper⟩
    rcases move_of_some held with ⟨here, same⟩ | ⟨other, away, same⟩
    · exact .inl ⟨here, b, same, lower, upper⟩
    · exact .inr ⟨other, away, b, same, lower, upper⟩
  · rintro (⟨here, b, same, inside⟩ | ⟨other, away, b, same, inside⟩)
    · refine ⟨b, ?_, inside⟩
      rw [here, Regions.move, update_self, same]
    · refine ⟨b, ?_, inside⟩
      rw [Regions.move, update_of_ne other, update_of_ne away, same]

/-- The pages outside of all regions stay the same. -/
theorem outside_move (free : base s = none) :
    (∀ t, ¬ Has len (move base r s) t v) ↔ ∀ t, ¬ Has len base t v := by
  constructor
  · intro outside t inside
    by_cases isS : t = s
    · rw [isS] at inside
      exact not_has_none free inside
    · by_cases isR : t = r
      · rw [isR] at inside
        exact outside s (has_move.mpr (.inl ⟨rfl, inside⟩))
      · exact outside t (has_move.mpr (.inr ⟨isS, isR, inside⟩))
  · intro outside t inside
    rcases has_move.mp inside with ⟨_, inside⟩ | ⟨_, _, inside⟩
    · exact outside r inside
    · exact outside t inside

theorem Apart.push (apart : Apart len top base) : Apart len (top + len)
    (update base s (some top)) := by
  constructor
  · intro t b held
    rcases update_of_some held with ⟨_, same⟩ | ⟨_, same⟩
    · cases same
      exact Nat.le_refl _
    · have below := apart.below t b same
      omega
  intro t u b c held held' different
  rcases update_of_some held with ⟨isS, same⟩ | ⟨_, same⟩
  · rcases update_of_some held' with ⟨isS', _⟩ | ⟨_, same'⟩
    · exact absurd (isS.trans isS'.symm) different
    · have below := apart.below u c same'
      cases same
      omega
  · rcases update_of_some held' with ⟨_, same'⟩ | ⟨_, same'⟩
    · have below := apart.below t b same
      cases same'
      omega
    · exact apart.disjoint t u b c same same' different

theorem has_push : Has len (update base s (some a)) t v ↔
    t = s ∧ a ≤ v ∧ v < a + len ∨ t ≠ s ∧ Has len base t v := by
  constructor
  · rintro ⟨b, held, inside⟩
    rcases update_of_some held with ⟨here, same⟩ | ⟨other, same⟩
    · cases same
      exact .inl ⟨here, inside⟩
    · exact .inr ⟨other, b, same, inside⟩
  · rintro (⟨here, inside⟩ | ⟨other, b, same, inside⟩)
    · exact ⟨a, by rw [here, update_self], inside⟩
    · exact ⟨b, by rw [update_of_ne other, same], inside⟩

/-- How many places of `places` hold a region. -/
def used (places : Finset R) (base : R → Option Nat) : Nat :=
  (places.filter fun r => (base r).isSome).card

theorem used_move {places : Finset R} (source : r ∈ places) (target : s ∈ places)
    (held : base r = some a) (free : base s = none) :
    used places (move base r s) = used places base := by
  have different : r ≠ s := by
    intro same
    rw [same, free] at held
    cases held
  have filtered : places.filter (fun t => (move base r s t).isSome) =
      insert s ((places.filter fun t => (base t).isSome).erase r) := by
    ext t
    simp only [Finset.mem_filter, Finset.mem_insert, Finset.mem_erase]
    by_cases isS : t = s
    · rw [isS, move, update_self, held]
      simp [target]
    · by_cases isR : t = r
      · rw [isR, move, update_of_ne different, update_self]
        simp [different]
      · rw [move, update_of_ne isS, update_of_ne isR]
        simp [isS, isR]
  have member : r ∈ places.filter fun t => (base t).isSome := by
    rw [Finset.mem_filter, held]
    exact ⟨source, rfl⟩
  have absent : s ∉ (places.filter fun t => (base t).isSome).erase r := by
    simp [free]
  unfold used
  rw [filtered, Finset.card_insert_of_notMem absent, Finset.card_erase_add_one member]

end Regions
