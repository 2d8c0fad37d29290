import Mathlib.Data.List.Induction
import Mathlib.Logic.Function.Basic

/- Trees of blocks that hold block numbers, as in the index blocks of a file. Zero is the null
pointer; a tree of depth zero is a single block without pointers in it. -/
namespace Forest

open List

variable {R : Type} {i width depth a c : Nat}

/-- Follow the pointers that a path of indices names. Below a null pointer all is null. -/
def descend (mem : Nat → Nat → Nat) : Nat → List Nat → Nat
  | a, [] => a
  | a, i :: rest => if a = 0 then 0 else descend mem (mem a i) rest

/-- A place in a tree: its root and the path to it. -/
abbrev Place (R : Type) := R × List Nat

structure Shape (R : Type) where
  depth : R → Nat
  width : Nat

def Shape.Valid (shape : Shape R) (x : Place R) : Prop :=
  x.2.length ≤ shape.depth x.1 ∧ ∀ i ∈ x.2, i < shape.width

/-- The block number at a place. -/
def target (mem : Nat → Nat → Nat) (roots : R → Nat) (x : Place R) : Nat :=
  descend mem (roots x.1) x.2

/-- No block has two places. -/
def Exclusive (shape : Shape R) (mem : Nat → Nat → Nat) (roots : R → Nat) : Prop :=
  ∀ x y, shape.Valid x → shape.Valid y → target mem roots x ≠ 0 →
    target mem roots x = target mem roots y → x = y

section

variable (mem : Nat → Nat → Nat)
include mem

@[simp] theorem descend_nil (a : Nat) : descend mem a [] = a := rfl

@[simp] theorem descend_null (path : List Nat) : descend mem 0 path = 0 := by
  cases path <;> simp [descend]

theorem descend_append (a : Nat) (first second : List Nat) :
    descend mem a (first ++ second) = descend mem (descend mem a first) second := by
  induction first generalizing a with
  | nil => rfl
  | cons i rest ih =>
    simp only [cons_append, descend]
    split
    · rw [descend_null]
    · exact ih _

theorem target_snoc (roots : R → Nat) (r : R) (path : List Nat) (i : Nat) :
    target mem roots (r, path ++ [i]) =
      if target mem roots (r, path) = 0 then 0 else mem (target mem roots (r, path)) i := by
  simp only [target, descend_append]
  rfl

end

variable {shape : Shape R} {mem new : Nat → Nat → Nat} {roots : R → Nat}

theorem Shape.Valid.init {r : R} {path : List Nat} (valid : shape.Valid (r, path ++ [i])) :
    shape.Valid (r, path) ∧ path.length < shape.depth r ∧ i < shape.width := by
  obtain ⟨short, small⟩ := valid
  simp only [length_append, length_singleton] at short
  refine ⟨⟨by dsimp only; omega, fun j member => small j ?_⟩, by omega, small i (by simp)⟩
  exact mem_append_left _ member

theorem target_congr (same : ∀ y, shape.Valid y → y.2.length < shape.depth y.1 →
    target mem roots y ≠ 0 →
      ∀ i < shape.width, new (target mem roots y) i = mem (target mem roots y) i) {x : Place R}
    (valid : shape.Valid x) : target new roots x = target mem roots x := by
  obtain ⟨r, path⟩ := x
  induction path using List.reverseRecOn with
  | nil => rfl
  | append_singleton path i ih =>
    obtain ⟨above, inner, small⟩ := valid.init
    rw [target_snoc, target_snoc, ih above]
    split
    · rfl
    · rename_i present
      exact same (r, path) above inner present i small

section Link

variable {b : Nat}

/-- Storing a new empty block in a null entry of an index block adds one place. -/
theorem target_link [DecidableEq R] (exclusive : Exclusive shape mem roots) {r : R}
    {path : List Nat} (valid : shape.Valid (r, path ++ [i]))
    (present : target mem roots (r, path) ≠ 0) (free : target mem roots (r, path ++ [i]) = 0)
    (fresh : ∀ y, shape.Valid y → target mem roots y ≠ b) (empty : ∀ j < shape.width, mem b j = 0)
    (stored : ∀ c j, new c j = if c = target mem roots (r, path) ∧ j = i then b else mem c j)
    {x : Place R} (validX : shape.Valid x) :
    target new roots x = if x = (r, path ++ [i]) then b else target mem roots x := by
  obtain ⟨q, route⟩ := x
  obtain ⟨validPath, _, _⟩ := valid.init
  induction route using List.reverseRecOn with
  | nil =>
    rw [if_neg (by simp)]
    rfl
  | append_singleton route j ih =>
    obtain ⟨above, _, small⟩ := validX.init
    have apart : b ≠ target mem roots (r, path) := fun same => fresh _ validPath same.symm
    rw [target_snoc, target_snoc, ih above]
    by_cases here : (q, route) = (r, path ++ [i])
    · -- below the new block there is nothing yet
      obtain ⟨rfl, rfl⟩ := Prod.mk.inj here
      have longer : (q, (path ++ [i]) ++ [j]) ≠ (q, path ++ [i]) := by simp
      rw [if_pos rfl, if_neg longer, if_pos free, stored]
      simp only [apart, false_and, if_false, empty j small, ite_self]
    rw [if_neg here]
    by_cases null : target mem roots (q, route) = 0
    · have other : (q, route ++ [j]) ≠ (r, path ++ [i]) := by
        intro same
        simp only [Prod.mk.injEq, append_singleton_inj] at same
        obtain ⟨rfl, rfl, rfl⟩ := same
        exact present null
      rw [if_pos null, if_neg other, if_pos null]
    · rw [if_neg null, if_neg null, stored]
      by_cases same : (q, route) = (r, path)
      · obtain ⟨rfl, rfl⟩ := Prod.mk.inj same
        simp
      have differ : target mem roots (q, route) ≠ target mem roots (r, path) :=
        fun equal => same (exclusive _ _ above validPath null equal)
      have other : (q, route ++ [j]) ≠ (r, path ++ [i]) := by
        simp only [ne_eq, Prod.mk.injEq, append_singleton_inj] at same ⊢
        exact fun equal => same ⟨equal.1, equal.2.1⟩
      rw [if_neg (fun both => differ both.1), if_neg other]

theorem target_linkRoot [DecidableEq R] {r : R} (free : roots r = 0)
    (empty : ∀ j < shape.width, mem b j = 0) {x : Place R} (validX : shape.Valid x) :
    target mem (Function.update roots r b) x = if x = (r, []) then b else target mem roots x := by
  obtain ⟨q, route⟩ := x
  induction route using List.reverseRecOn with
  | nil =>
    by_cases same : q = r
    · subst same
      simp [target]
    · simp [target, same]
  | append_singleton route j ih =>
    obtain ⟨above, _, small⟩ := validX.init
    rw [target_snoc, target_snoc, ih above, if_neg (by simp : (q, route ++ [j]) ≠ (r, []))]
    by_cases here : (q, route) = (r, [])
    · obtain ⟨rfl, rfl⟩ := Prod.mk.inj here
      have null : target mem roots (q, []) = 0 := free
      rw [if_pos rfl, empty j small, ite_self, if_pos null]
    · rw [if_neg here]

/-- One more place, for a block that had none, keeps the trees exclusive. -/
theorem Exclusive.grow [DecidableEq R] (exclusive : Exclusive shape mem roots) {after : R → Nat}
    {place : Place R} (fresh : ∀ y, shape.Valid y → target mem roots y ≠ b)
    (grown : ∀ x, shape.Valid x → target new after x = if x = place then b
      else target mem roots x) :
    Exclusive shape new after := by
  intro x y validX validY present same
  rw [grown x validX] at present same
  rw [grown y validY] at same
  by_cases hereX : x = place
  · by_cases hereY : y = place
    · rw [hereX, hereY]
    · rw [if_pos hereX, if_neg hereY] at same
      exact absurd same.symm (fresh y validY)
  · by_cases hereY : y = place
    · rw [if_neg hereX, if_pos hereY] at same
      exact absurd same (fresh x validX)
    · rw [if_neg hereX] at present same
      rw [if_neg hereY] at same
      exact exclusive x y validX validY present same

end Link

/-- The blocks of the tree of a given depth below `a`, with `a` itself. -/
def Below (mem : Nat → Nat → Nat) (width : Nat) : Nat → Nat → Nat → Prop
  | 0, a, c => a ≠ 0 ∧ c = a
  | depth + 1, a, c => a ≠ 0 ∧ (c = a ∨ ∃ i < width, Below mem width depth (mem a i) c)

theorem Below.ne_zero (below : Below mem width depth a c) : c ≠ 0 := by
  induction depth generalizing a with
  | zero =>
    intro null
    exact below.1 (below.2.symm.trans null)
  | succ depth ih =>
    cases below.2 with
    | inl same =>
      intro null
      exact below.1 (same.symm.trans null)
    | inr deeper =>
      obtain ⟨i, _, under⟩ := deeper
      exact ih under

theorem Below.self (present : a ≠ 0) : Below mem width depth a a := by
  cases depth with
  | zero => exact ⟨present, rfl⟩
  | succ depth => exact ⟨present, .inl rfl⟩

/-- They are the blocks that short paths lead to. -/
theorem below_iff : Below mem width depth a c ↔
    c ≠ 0 ∧ ∃ path : List Nat, path.length ≤ depth ∧ (∀ i ∈ path, i < width) ∧
      descend mem a path = c := by
  constructor
  · intro below
    apply And.intro below.ne_zero
    induction depth generalizing a with
    | zero => exact ⟨[], by simp, by simp, below.2.symm⟩
    | succ depth ih =>
      cases below.2 with
      | inl same => exact ⟨[], by simp, by simp, same.symm⟩
      | inr deeper =>
        obtain ⟨i, small, under⟩ := deeper
        obtain ⟨path, short, inside, leads⟩ := ih under
        refine ⟨i :: path, by simpa using short, ?_, ?_⟩
        · simpa using ⟨small, inside⟩
        · rw [descend, if_neg below.1, leads]
  · intro found
    obtain ⟨nonzero, path, short, inside, leads⟩ := found
    induction path generalizing a depth with
    | nil =>
      subst leads
      exact Below.self nonzero
    | cons i rest ih =>
      have present : a ≠ 0 := by
        intro null
        rw [null, descend_null] at leads
        exact nonzero leads.symm
      rw [descend, if_neg present] at leads
      cases depth with
      | zero => simp at short
      | succ depth =>
        have under := ih (by simpa using short)
          (fun j member => inside j (mem_cons_of_mem _ member)) leads
        exact ⟨present, .inr ⟨i, inside i (by simp), under⟩⟩

end Forest
