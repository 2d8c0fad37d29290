import Mathlib.Data.List.Nodup
import Mathlib.Logic.Function.Basic

/- A pool of items, some of them free and the others each with one use. -/
namespace Pool

open Function List

variable {U V F : Type}

/-- No item is twice in the free list, in use and free, or used twice. -/
structure Separate (free : List F) (use : U → Option F) : Prop where
  nodup : free.Nodup
  apart : ∀ u f, use u = some f → f ∉ free
  injective : ∀ u v f, use u = some f → use v = some f → u = v

variable {free : List F} {use : U → Option F} {use' : V → Option F}

section

variable (separate : Separate free use)
include separate

theorem Separate.perm {other : List F} (same : free.Perm other) : Separate other use := by
  constructor
  · exact same.nodup_iff.mp separate.nodup
  · intro u f used member
    exact separate.apart u f used (same.mem_iff.mpr member)
  · exact separate.injective

/-- Uses under other names, and perhaps fewer of them. -/
theorem Separate.embed (name : V → U) (same : ∀ v f, use' v = some f → use (name v) = some f)
    (distinct : ∀ v w f, use' v = some f → use' w = some f → name v = name w → v = w) :
    Separate free use' := by
  constructor
  · exact separate.nodup
  · intro v f used
    exact separate.apart (name v) f (same v f used)
  · intro v w f first second
    apply distinct v w f first second
    exact separate.injective (name v) (name w) f (same v f first) (same w f second)

theorem Separate.congr {other : U → Option F} (same : ∀ u f, other u = some f → use u = some f) :
    Separate free other :=
  separate.embed id same fun _ _ _ _ _ equal => equal

theorem Separate.extend : Separate free (Sum.elim use fun _ : V => none) := by
  constructor
  · exact separate.nodup
  · intro u f used
    cases u with
    | inl u => exact separate.apart u f used
    | inr v => cases used
  · intro u v f first second
    cases u with
    | inl u =>
      cases v with
      | inl v => exact congrArg _ (separate.injective u v f first second)
      | inr v => cases second
    | inr u => cases first

theorem Separate.sublist {fewer : List F} (less : fewer.Sublist free) : Separate fewer use := by
  constructor
  · exact separate.nodup.sublist less
  · intro u f used member
    exact separate.apart u f used (less.subset member)
  · exact separate.injective

end

theorem Separate.take [DecidableEq U] {hand rest : List F} {f : F}
    (separate : Separate (hand ++ f :: rest) use) (u : U) :
    Separate (hand ++ rest) (update use u (some f)) := by
  have moved := separate.perm perm_middle
  obtain ⟨fresh, nodup⟩ := nodup_cons.mp moved.nodup
  have other : ∀ v g, use v = some g → g ≠ f := by
    intro v g used equal
    rw [equal] at used
    exact moved.apart v f used mem_cons_self
  constructor
  · exact nodup
  · intro v g used
    rw [update_apply] at used
    split at used
    · cases used
      exact fresh
    · intro member
      exact moved.apart v g used (mem_cons_of_mem f member)
  · intro v w g first second
    rw [update_apply] at first second
    split at first
    · rename_i here
      cases first
      split at second
      · rename_i there
        rw [here, there]
      · exact absurd rfl (other w f second)
    · split at second
      · cases second
        exact absurd rfl (other v f first)
      · exact separate.injective v w g first second

theorem Separate.takeHead [DecidableEq U] {rest : List F} {f : F}
    (separate : Separate (f :: rest) use) (u : U) : Separate rest (update use u (some f)) :=
  have separate : Separate ([] ++ f :: rest) use := separate
  separate.take u

theorem Separate.release [DecidableEq U] (separate : Separate free use) (uses : List U)
    (nodup : uses.Nodup) :
    Separate (uses.filterMap use ++ free) (fun u => if u ∈ uses then none else use u) := by
  have used : ∀ f, f ∈ uses.filterMap use → ∃ u, u ∈ uses ∧ use u = some f := by
    intro f member
    exact mem_filterMap.mp member
  constructor
  · rw [nodup_append]
    refine ⟨?_, separate.nodup, ?_⟩
    · apply nodup.filterMap
      intro u v f first second
      exact separate.injective u v f first second
    · intro f member g free equal
      obtain ⟨u, _, found⟩ := used f member
      rw [equal] at found
      exact separate.apart u g found free
  · intro u f found member
    split at found
    · cases found
    rename_i kept
    rcases mem_append.mp member with released | free
    · obtain ⟨v, member, same⟩ := used f released
      rw [separate.injective u v f found same] at kept
      exact kept member
    · exact separate.apart u f found free
  · intro u v f first second
    split at first
    · cases first
    · split at second
      · cases second
      · exact separate.injective u v f first second

theorem Separate.give [DecidableEq U] {f : F} {u : U} (separate : Separate free use)
    (used : use u = some f) : Separate (f :: free) (update use u none) := by
  have released := separate.release [u] (nodup_singleton u)
  rw [filterMap_cons, used] at released
  apply released.congr
  intro v g found
  rw [update_apply] at found
  split at found
  · cases found
  · rename_i other
    rw [if_neg (mt mem_singleton.mp other)]
    exact found

/-- The item is free or in use. -/
def Has (free : List F) (use : U → Option F) (f : F) : Prop := f ∈ free ∨ ∃ u, use u = some f

theorem Has.fill [DecidableEq U] {f : F} {u : U} {item : Option F} (has : Has free use f)
    (none : use u = none) : Has free (update use u item) f := by
  refine has.imp id fun found => ?_
  obtain ⟨w, found⟩ := found
  refine ⟨w, (update_of_ne (fun same => ?_) _ _).trans found⟩
  cases none.symm.trans (same ▸ found)

theorem Has.take [DecidableEq U] {rest : List F} {f g : F} {u : U} (has : Has (f :: rest) use g)
    (none : use u = none) : Has rest (update use u (some f)) g := by
  rcases has with member | found
  · rcases mem_cons.mp member with same | member
    · exact .inr ⟨u, by rw [update_self, same]⟩
    · exact .inl member
  · exact Has.fill (.inr found) none

theorem Has.give [DecidableEq U] {f g : F} {u : U} (has : Has free use g) (used : use u = some f) :
    Has (f :: free) (update use u none) g := by
  rcases has with member | ⟨w, found⟩
  · exact .inl (mem_cons_of_mem f member)
  · by_cases here : w = u
    · rw [here, used] at found
      exact .inl (Option.some.inj found ▸ mem_cons_self)
    · exact .inr ⟨w, (update_of_ne here _ _).trans found⟩

end Pool
