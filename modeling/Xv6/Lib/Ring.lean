import Mathlib.Data.List.Basic
import Mathlib.Data.Nat.ModEq
import Mathlib.Logic.Function.Basic

/- A ring buffer with free-running counters. The counters say how many items went in and out since
the start, modulo the word size; an item is at the place of its number modulo the size of the
buffer. -/
namespace Ring

open List

variable {α : Type} {size taken : Nat} {data : Nat → α} {stream : List α}

/-- The buffer holds the items of the stream from number `taken` on. -/
structure Holds (size : Nat) (data : Nat → α) (taken : Nat) (stream : List α) : Prop where
  behind : taken ≤ stream.length
  fits : stream.length ≤ taken + size
  items : ∀ i, taken ≤ i → i < stream.length → stream[i]? = some (data (i % size))

theorem holds_nil (size : Nat) (data : Nat → α) : Holds size data 0 [] :=
  ⟨Nat.le_refl _, Nat.zero_le _, fun _ _ inside => absurd inside (Nat.not_lt_zero _)⟩

/-- Two numbers less than `size` apart have different places. -/
theorem place_ne {i j : Nat} (order : i < j) (near : j < i + size) : i % size ≠ j % size := by
  intro same
  have multiple : size ∣ j - i := (Nat.modEq_iff_dvd' (Nat.le_of_lt order)).mp same
  have := Nat.le_of_dvd (by omega) multiple
  omega

theorem Holds.store (holds : Holds size data taken stream) (item : α)
    (room : stream.length < taken + size) :
    Holds size (Function.update data (stream.length % size) item) taken (stream ++ [item]) := by
  have longer : (stream ++ [item]).length = stream.length + 1 := by simp
  refine ⟨?_, by omega, fun i lower upper => ?_⟩
  · have := holds.behind
    omega
  by_cases last : i = stream.length
  · rw [last, Function.update_self, getElem?_concat_length]
  · have inside : i < stream.length := by omega
    rw [Function.update_of_ne (place_ne inside (by omega)), getElem?_append_left inside]
    exact holds.items i lower inside

theorem Holds.take (holds : Holds size data taken stream) (more : taken < stream.length) :
    stream[taken]? = some (data (taken % size)) ∧ Holds size data (taken + 1) stream :=
  ⟨holds.items taken (Nat.le_refl _) more, more, by have := holds.fits; omega,
    fun i lower upper => holds.items i (by omega) upper⟩

theorem Holds.shorten {rest : List α} (holds : Holds size data taken (stream ++ rest))
    (behind : taken ≤ stream.length) : Holds size data taken stream := by
  have longer : (stream ++ rest).length = stream.length + rest.length := length_append
  have fits := holds.fits
  refine ⟨behind, by omega, fun i lower upper => ?_⟩
  rw [← holds.items i lower (by omega), getElem?_append_left upper]

/-- The last items, read from their places. -/
theorem Holds.suffix {rest : List α} (holds : Holds size data taken (stream ++ rest))
    (behind : taken ≤ stream.length) :
    (List.range rest.length).map (fun i => data ((stream.length + i) % size)) = rest := by
  have longer : (stream ++ rest).length = stream.length + rest.length := length_append
  refine ext_getElem? fun i => ?_
  rw [getElem?_map]
  by_cases inside : i < rest.length
  · rw [getElem?_range inside, Option.map_some, ← holds.items _ (by omega) (by omega),
      getElem?_append_right (Nat.le_add_right _ _), Nat.add_sub_cancel_left]
  · rw [getElem?_eq_none (by rw [length_range]; omega), getElem?_eq_none (by omega)]
    rfl

section Counters

theorem counter_eq {a b : Nat} (order : a ≤ b) (near : b < a + 2 ^ 32) :
    UInt32.ofNat a = UInt32.ofNat b ↔ a = b := by
  constructor
  · intro same
    have values := congrArg UInt32.toNat same
    rw [UInt32.toNat_ofNat', UInt32.toNat_ofNat'] at values
    omega
  · exact congrArg UInt32.ofNat

theorem counter_full {a b : Nat} (order : a ≤ b) (fits : b ≤ a + size) (small : size < 2 ^ 32) :
    UInt32.ofNat b = UInt32.ofNat a + UInt32.ofNat size ↔ b = a + size := by
  rw [← UInt32.ofNat_add, counter_eq fits (by omega)]

theorem counter_sub {a b : Nat} (order : a ≤ b) (near : b < a + 2 ^ 32) :
    (UInt32.ofNat b - UInt32.ofNat a).toNat = b - a := by
  rw [UInt32.toNat_sub, UInt32.toNat_ofNat', UInt32.toNat_ofNat']
  omega

theorem counter_mod {n size : Nat} (divides : size ∣ 2 ^ 32) :
    (UInt32.ofNat n).toNat % size = n % size := by
  rw [UInt32.toNat_ofNat', Nat.mod_mod_of_dvd _ divides]

end Counters

end Ring
