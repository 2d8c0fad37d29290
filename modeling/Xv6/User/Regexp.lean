import Mathlib.Computability.Language

/- The matcher of `grep`: the languages of its patterns, and that `match` finds their words. A
string is the list of its bytes before the one that is zero. -/
namespace Xv6.User

open Language Computability List

variable {c : UInt8} {re text : List UInt8}

def caret : UInt8 := 94
def dollar : UInt8 := 36
def dot : UInt8 := 46
def star : UInt8 := 42

mutual

/-- Search for `re` at the beginning of the text. -/
def matchhere (re text : List UInt8) : Bool :=
  match re with
  | [] => true
  | c :: re =>
    if re.head? = some star then matchstar c re.tail text
    else if c = dollar ∧ re = [] then text = []
    else match text with
      | [] => false
      | t :: text => if c = dot ∨ c = t then matchhere re text else false
termination_by (re.length, text.length, 0)
decreasing_by all_goals simp only [length_cons, length_tail, Prod.lex_def]; omega

/-- Search for `c*re` at the beginning of the text. -/
def matchstar (c : UInt8) (re text : List UInt8) : Bool :=
  if matchhere re text then true
  else match text with
    | [] => false
    | t :: text => if t = c ∨ c = dot then matchstar c re text else false
termination_by (re.length, text.length, 1)

end

/-- The loop of `match`. -/
def matchLoop (re : List UInt8) : List UInt8 → Bool
  | [] => matchhere re []
  | t :: text => if matchhere re (t :: text) then true else matchLoop re text

/-- The function `match`. -/
def matchRe (re text : List UInt8) : Bool :=
  if re.head? = some caret then matchhere re.tail text else matchLoop re text

/-- The items of a pattern behind its caret, each a byte with whether it is starred, and whether an
unstarred dollar ends them. -/
def items : List UInt8 → List (UInt8 × Bool) × Bool
  | [] => ([], false)
  | [c] => if c = dollar then ([], true) else ([(c, false)], false)
  | c :: d :: re =>
    if d = star then ((c, true) :: (items re).1, (items re).2)
    else ((c, false) :: (items (d :: re)).1, (items (d :: re)).2)

/-- The words of one letter that a byte of a pattern stands for. -/
def letter (c : UInt8) : Language UInt8 := {w | ∃ t, (c = dot ∨ c = t) ∧ w = [t]}

/-- The words of a list of items. -/
def language : List (UInt8 × Bool) → Language UInt8
  | [] => 1
  | (c, false) :: rest => letter c * language rest
  | (c, true) :: rest => (letter c)∗ * language rest

theorem mem_letter_star {w : List UInt8} : w ∈ (letter c)∗ ↔ ∀ t ∈ w, c = dot ∨ c = t := by
  rw [mem_kstar]
  constructor
  · rintro ⟨words, rfl, letters⟩ t inside
    obtain ⟨word, member, inside⟩ := mem_flatten.mp inside
    obtain ⟨t, fits, rfl⟩ := letters word member
    rw [mem_singleton.mp inside]
    exact fits
  · intro fits
    refine ⟨w.map fun t => [t], (flatMap_singleton' w).symm, fun word member => ?_⟩
    obtain ⟨t, inside, rfl⟩ := mem_map.mp member
    exact ⟨t, fits t inside, rfl⟩

/-- A byte of the text is skipped at a time, as many as the star stands for. -/
theorem matchstar_iff : matchstar c re text = true ↔
    ∃ skipped rest, text = skipped ++ rest ∧ (∀ t ∈ skipped, c = dot ∨ c = t) ∧
      matchhere re rest = true := by
  induction text with
  | nil =>
    rw [matchstar, Bool.if_true_left, Bool.or_false, decide_eq_true_eq]
    constructor
    · exact fun found => ⟨[], [], rfl, forall_mem_nil _, found⟩
    · rintro ⟨skipped, rest, whole, _, found⟩
      rwa [(append_eq_nil_iff.mp whole.symm).2] at found
  | cons t text ih =>
    rw [matchstar, Bool.if_true_left, Bool.or_eq_true, decide_eq_true_eq, Bool.if_false_right,
      Bool.and_eq_true,
      decide_eq_true_eq, ih]
    constructor
    · rintro (found | ⟨fits, skipped, rest, rfl, skips, found⟩)
      · exact ⟨[], _, rfl, forall_mem_nil _, found⟩
      · exact ⟨t :: skipped, rest, rfl, forall_mem_cons.mpr ⟨fits.symm.imp id Eq.symm, skips⟩,
          found⟩
    · rintro ⟨_ | ⟨d, skipped⟩, rest, whole, skips, found⟩
      · rw [whole]
        exact .inl found
      · obtain ⟨rfl, rfl⟩ := cons_eq_cons.mp whole
        obtain ⟨fits, skips⟩ := forall_mem_cons.mp skips
        exact .inr ⟨fits.symm.imp Eq.symm id, skipped, rest, rfl, skips, found⟩

/-- A text begins with a word, and ends with it where the pattern does. -/
def Begins (l : Language UInt8) (ended : Bool) (text : List UInt8) : Prop :=
  ∃ found after, text = found ++ after ∧ found ∈ l ∧ (ended = true → after = [])

theorem begins_mul {first l : Language UInt8} {ended : Bool} : Begins (first * l) ended text ↔
    ∃ skipped rest, text = skipped ++ rest ∧ skipped ∈ first ∧ Begins l ended rest := by
  constructor
  · rintro ⟨_, after, rfl, ⟨skipped, here, found, inside, rfl⟩, last⟩
    exact ⟨skipped, found ++ after, append_assoc .., here, found, after, rfl, inside, last⟩
  · rintro ⟨skipped, _, rfl, here, found, after, rfl, inside, last⟩
    exact ⟨skipped ++ found, after, (append_assoc ..).symm, append_mem_mul here inside, last⟩

theorem matchhere_letter (plain : re.head? ≠ some star) (inner : ¬(c = dollar ∧ re = [])) :
    matchhere (c :: re) text = true ↔
      ∃ skipped rest, text = skipped ++ rest ∧ skipped ∈ letter c ∧ matchhere re rest = true := by
  rw [matchhere.eq_def]
  dsimp only
  rw [if_neg plain, if_neg inner]
  cases text with
  | nil =>
    constructor
    · exact fun found => by cases found
    · rintro ⟨_, rest, whole, ⟨t, _, rfl⟩, _⟩
      cases whole
  | cons t text =>
    dsimp only
    rw [Bool.if_false_right, Bool.and_eq_true, decide_eq_true_eq]
    constructor
    · exact fun found => ⟨[t], text, rfl, ⟨t, found.1, rfl⟩, found.2⟩
    · rintro ⟨_, rest, whole, ⟨d, fits, rfl⟩, found⟩
      obtain ⟨rfl, rfl⟩ := cons_eq_cons.mp whole
      exact ⟨fits, found⟩

theorem matchhere_nil : matchhere [] text = true ↔ Begins (language []) false text := by
  rw [matchhere.eq_def]
  exact ⟨fun _ => ⟨[], text, rfl, rfl, fun ended => by cases ended⟩, fun _ => rfl⟩

theorem matchhere_iff : matchhere re text = true ↔ Begins (language (items re).1)
    (items re).2 text := by
  induction re using items.induct generalizing text with
  | case1 => exact matchhere_nil
  | case2 =>
    rw [matchhere.eq_def, items, if_pos rfl]
    dsimp only
    rw [if_neg (by decide), if_pos ⟨rfl, rfl⟩, decide_eq_true_eq]
    constructor
    · rintro rfl
      exact ⟨[], [], rfl, rfl, fun _ => rfl⟩
    · rintro ⟨_, after, rfl, rfl, last⟩
      exact last rfl
  | case3 c other =>
    rw [matchhere_letter (by decide) fun ends => other ends.1, items, if_neg other,
      language, begins_mul]
    simp only [matchhere_nil]
  | case4 c re ih =>
    rw [matchhere.eq_def, items, if_pos rfl, language, begins_mul]
    dsimp only
    rw [if_pos (by rfl), tail_cons, matchstar_iff]
    simp only [ih, mem_letter_star]
  | case5 c d re other ih =>
    rw [matchhere_letter (by simpa using other) (by simp), items, if_neg other,
      language, begins_mul]
    simp only [ih]

theorem matchLoop_eq : matchLoop re text = matchstar dot re text := by
  induction text with
  | nil =>
    rw [matchLoop, matchstar]
    cases matchhere re [] <;> rfl
  | cons t text ih => rw [matchLoop, matchstar, ih, if_pos (show t = dot ∨ dot = dot from .inr rfl)]

/-- A pattern behind its caret. -/
def body (re : List UInt8) : List UInt8 := if re.head? = some caret then re.tail else re

/-- Some part of the text is a word of the pattern, a first one behind a caret and a last one before
a dollar. -/
theorem match_language (re text : List UInt8) : matchRe re text = true ↔
    ∃ before found after, text = before ++ found ++ after ∧ found ∈ language (items (body re)).1 ∧
      (re.head? = some caret → before = []) ∧ ((items (body re)).2 = true → after = []) := by
  unfold matchRe body
  split
  case isTrue anchored =>
    rw [matchhere_iff]
    constructor
    · rintro ⟨found, after, whole, inside, last⟩
      exact ⟨[], found, after, whole, inside, fun _ => rfl, last⟩
    · rintro ⟨before, found, after, whole, inside, first, last⟩
      rw [first anchored] at whole
      exact ⟨found, after, whole, inside, last⟩
  case isFalse free =>
    simp only [matchLoop_eq, matchstar_iff, matchhere_iff]
    constructor
    · rintro ⟨before, _, rfl, -, found, after, rfl, inside, last⟩
      exact ⟨before, found, after, (append_assoc ..).symm, inside, fun head => absurd head free,
        last⟩
    · rintro ⟨before, found, after, rfl, inside, -, last⟩
      exact ⟨before, found ++ after, append_assoc .., by simp, found, after, rfl, inside, last⟩

end Xv6.User
