import Mathlib.Logic.Basic

/- Computations that return a value or stop with an error, and what they end in. -/
namespace Outcome

open List

variable {E A B : Type} {post : A → Prop} {outcome : Except E A} {next : A → Except E B}

/-- The computation returns a value with `post`, or stops with an allowed error. -/
def Ends (allowed : E → Prop) (post : A → Prop) : Except E A → Prop
  | .error e => allowed e
  | .ok a => post a

/-- The error that a computation stops with. -/
def failure : Except E A → Option E
  | .error e => some e
  | .ok _ => none

variable {allowed : E → Prop}

theorem Ends.mono {weaker : A → Prop} (ends : Ends allowed post outcome)
    (implies : ∀ a, post a → weaker a) :
    Ends allowed weaker outcome := by
  cases outcome with
  | error e => exact ends
  | ok a => exact implies a ends

theorem Ends.bind {final : B → Prop} (ends : Ends allowed post outcome)
    (goes : ∀ a, post a → Ends allowed final (next a)) : Ends allowed final (outcome >>= next) := by
  cases outcome with
  | error e => exact ends
  | ok a => exact goes a ends

theorem Ends.ite {c : Prop} [Decidable c] {yes no : Except E A} (first : c → Ends allowed post yes)
    (second : ¬ c → Ends allowed post no) : Ends allowed post (if c then yes else no) := by
  split
  · exact first ‹_›
  · exact second ‹_›

theorem Ends.result (ends : Ends allowed post outcome) :
    Ends allowed (fun a => outcome = .ok a) outcome := by
  cases outcome with
  | error e => exact ends
  | ok a => rfl

theorem bind_eq_ok {b : B} : (outcome >>= next) = .ok b ↔ ∃ a, outcome = .ok a ∧
    next a = .ok b := by
  cases outcome with
  | error e =>
    constructor
    · intro ended
      cases ended
    · rintro ⟨a, ran, _⟩
      cases ran
  | ok a =>
    constructor
    · exact fun ran => ⟨a, rfl, ran⟩
    · rintro ⟨b, same, ran⟩
      cases same
      exact ran

theorem map_eq_ok {f : A → B} {b : B} : outcome.map f = .ok b ↔ ∃ a, outcome = .ok a ∧ f a = b := by
  cases outcome with
  | error e =>
    constructor
    · intro ended
      cases ended
    · rintro ⟨a, ran, _⟩
      cases ran
  | ok a =>
    constructor
    · intro ran
      cases ran
      exact ⟨a, rfl, rfl⟩
    · rintro ⟨b, same, ran⟩
      cases same
      rw [← ran]
      rfl

theorem Ends.of_ok {a : A} (ends : Ends allowed post outcome) (ran : outcome = .ok a) : post a := by
  rw [ran] at ends
  exact ends

/-- If the computation returns a value, it has `post`. -/
abbrev WhenOk (post : A → Prop) (outcome : Except E A) : Prop := Ends (fun _ => True) post outcome

theorem WhenOk.intro (holds : ∀ a, outcome = .ok a → post a) : WhenOk post outcome := by
  cases outcome with
  | error e => trivial
  | ok a => exact holds a rfl

theorem toOption_eq_some {a : A} : outcome.toOption = some a ↔ outcome = .ok a := by
  cases outcome with
  | error e =>
    constructor
    · intro same
      cases same
    · intro same
      cases same
  | ok b =>
    constructor
    · intro same
      cases same
      rfl
    · intro same
      cases same
      rfl

theorem toOption_map_fst_eq_some {outcome : Except E (A × B)} {a : A} :
    outcome.toOption.map Prod.fst = some a ↔ ∃ b, outcome = .ok (a, b) := by
  rw [Option.map_eq_some_iff]
  constructor
  · intro found
    obtain ⟨⟨first, second⟩, ran, same⟩ := found
    cases same
    exact ⟨second, toOption_eq_some.mp ran⟩
  · intro found
    obtain ⟨b, ran⟩ := found
    exact ⟨(a, b), toOption_eq_some.mpr ran, rfl⟩

section Loop

variable {S I : Type} {step : S → I → Except E S} {list : List I}

/-- A loop over a list ends in what its rounds keep. -/
theorem Ends.rounds {allowed : E → Prop} (inv : List I → S → Prop)
    (keeps : ∀ done next rest v, list = done ++ next :: rest → inv done v →
      Ends allowed (inv (done ++ [next])) (step v next))
    {s : S} (start : inv [] s) : Ends allowed (inv list) (list.foldlM step s) := by
  suffices rounds : ∀ rest done v, list = done ++ rest → inv done v →
      Ends allowed (inv list) (rest.foldlM step v) from rounds list [] s rfl start
  intro rest
  induction rest with
  | nil =>
    intro done v whole kept
    rw [whole, append_nil]
    exact kept
  | cons next rest ih =>
    intro done v whole kept
    rw [foldlM_cons]
    refine (keeps done next rest v whole kept).bind fun w after => ih (done ++ [next]) w ?_ after
    rw [whole, append_assoc, singleton_append]

/-- A loop over a list that returns has kept what each of its rounds keeps. -/
theorem foldlM_ok (inv : List I → S → Prop)
    (keeps : ∀ done next rest v w, list = done ++ next :: rest → inv done v → step v next = .ok w →
      inv (done ++ [next]) w)
    {s t : S} (start : inv [] s) (ran : list.foldlM step s = .ok t) : inv list t := by
  have ends : WhenOk (inv list) (list.foldlM step s) := Ends.rounds inv
    (fun done next rest v whole kept => WhenOk.intro fun w =>
      keeps done next rest v w whole kept) start
  exact ends.of_ok ran

theorem Ends.foldlM {allowed : E → Prop} (inv : S → Prop)
    (keeps : ∀ s next, inv s → Ends allowed inv (step s next)) (list : List I) :
    ∀ s, inv s → Ends allowed inv (list.foldlM step s) := by
  induction list with
  | nil => exact fun s start => start
  | cons next rest ih =>
    intro s start
    rw [foldlM_cons]
    exact (keeps s next start).bind ih

/-- A loop over a list returns when each of its rounds does, with what the rounds keep. -/
theorem foldlM_total (inv : List I → S → Prop)
    (goes : ∀ done next rest v, list = done ++ next :: rest → inv done v →
      ∃ w, step v next = .ok w ∧ inv (done ++ [next]) w)
    {s : S} (start : inv [] s) : ∃ t, list.foldlM step s = .ok t ∧ inv list t := by
  have ends : Ends (fun _ => False) (inv list) (list.foldlM step s) := by
    refine Ends.rounds inv (fun done next rest v whole kept => ?_) start
    obtain ⟨w, one, after⟩ := goes done next rest v whole kept
    rw [one]
    exact after
  cases outcome : list.foldlM step s with
  | error e =>
    rw [outcome] at ends
    exact ends.elim
  | ok t => exact ⟨t, rfl, ends.of_ok outcome⟩

end Loop

end Outcome
