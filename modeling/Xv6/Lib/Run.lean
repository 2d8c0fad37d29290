import Mathlib.Data.List.Basic

/- Runs of a partial step function. A step that is not possible (a guard that
fails, a machine that has stopped) is `none`; all choices are in the event. -/
namespace Run

open Option

variable {S E A F : Type}
    {s next last middle : S} {event : E} {rest first second events : List E}
    {allowed safe : S → E → Prop}

/-- The state at the end of a run whose steps are all possible. -/
def exec (step : S → E → Option S) : S → List E → Option S
  | s, [] => some s
  | s, event :: rest => (step s event).bind (fun next => exec step next rest)

/-- Each step of the run satisfies `allowed` in the state it is taken from. -/
def Steps (step : S → E → Option S) (allowed : S → E → Prop) : S → List E → Prop
  | _, [] => True
  | s, event :: rest =>
    allowed s event ∧ ∀ next, step s event = some next → Steps step allowed next rest

/-- What an observer records of a run, one list for each step. -/
def observe (step : S → E → Option S) (seen : S → E → List F) : S → List E → List F
  | _, [] => []
  | s, event :: rest =>
    seen s event ++ ((step s event).map (fun next => observe step seen next rest)).getD []

variable (step : S → E → Option S)

@[simp] theorem exec_nil (s : S) : exec step s [] = some s := rfl

theorem exec_cons (s : S) (event : E) (rest : List E) :
    exec step s (event :: rest) = (step s event).bind (fun next => exec step next rest) := rfl

theorem exec_cons_of_step (taken : step s event = some next) (rest : List E) :
    exec step s (event :: rest) = exec step next rest := by
  rw [exec_cons, taken, bind_some]

theorem exec_cons_eq_some (run : exec step s (event :: rest) = some last) :
    ∃ next, step s event = some next ∧ exec step next rest = some last :=
  bind_eq_some_iff.mp run

theorem exec_append (s : S) (first second : List E) :
    exec step s (first ++ second) = (exec step s first).bind
      (fun next => exec step next second) := by
  induction first generalizing s with
  | nil => rfl
  | cons event rest ih =>
    rw [List.cons_append, exec_cons, exec_cons, bind_assoc]
    exact congrArg _ (funext ih)

theorem exec_append_of (before : exec step s first = some middle)
    (after : exec step middle second = some last) : exec step s (first ++ second) = some last := by
  rw [exec_append, before, bind_some, after]

variable {step}

/-- A run of a machine that stops more often is a run of the other. -/
theorem exec_mono {other : S → E → Option S}
    (steps : ∀ s event next, step s event = some next → other s event = some next)
    (run : exec step s events = some last) : exec other s events = some last := by
  induction events generalizing s with
  | nil => exact run
  | cons event rest ih =>
    obtain ⟨next, taken, remaining⟩ := exec_cons_eq_some step run
    rw [exec_cons_of_step other (steps s event next taken)]
    exact ih remaining

@[simp] theorem steps_nil (allowed : S → E → Prop) (s : S) : Steps step allowed s [] := trivial

theorem steps_cons (taken : step s event = some next) :
    Steps step allowed s (event :: rest) ↔ allowed s event ∧ Steps step allowed next rest := by
  constructor
  · exact fun given => ⟨given.1, given.2 next taken⟩
  · rintro ⟨first, remaining⟩
    refine ⟨first, fun other same => ?_⟩
    rw [taken] at same
    cases same
    exact remaining

theorem steps_of_forall (all : ∀ s event, allowed s event) (s : S) (events : List E) :
    Steps step allowed s events := by
  induction events generalizing s with
  | nil => trivial
  | cons event rest ih => exact ⟨all s event, fun next _ => ih next⟩

theorem Steps.and (first : Steps step allowed s events) (second : Steps step safe s events) :
    Steps step (fun s event => allowed s event ∧ safe s event) s events := by
  induction events generalizing s with
  | nil => trivial
  | cons event rest ih =>
    exact ⟨⟨first.1, second.1⟩, fun next taken => ih (first.2 next taken) (second.2 next taken)⟩

theorem Steps.mono (given : Steps step allowed s events)
    (implies : ∀ s event, allowed s event → safe s event) :
    Steps step safe s events := by
  induction events generalizing s with
  | nil => trivial
  | cons event rest ih => exact ⟨implies s event given.1, fun next taken => ih (given.2 next taken)⟩

theorem Steps.of_append (given : Steps step allowed s (first ++ second))
    (run : exec step s first = some middle) :
    Steps step allowed s first ∧ Steps step allowed middle second := by
  induction first generalizing s with
  | nil =>
    cases run
    exact ⟨trivial, given⟩
  | cons event rest ih =>
    obtain ⟨next, taken, remaining⟩ := exec_cons_eq_some step run
    obtain ⟨here, later⟩ := (steps_cons taken).mp given
    obtain ⟨before, after⟩ := ih later remaining
    exact ⟨(steps_cons taken).mpr ⟨here, before⟩, after⟩

instance decidableSteps (step : S → E → Option S) (allowed : S → E → Prop)
    [∀ s event, Decidable (allowed s event)] :
    ∀ (s : S) (events : List E), Decidable (Steps step allowed s events)
  | _, [] => isTrue trivial
  | s, event :: rest =>
    match taken : step s event with
    | none => decidable_of_iff (allowed s event)
        ⟨fun first => ⟨first, fun _ same => nomatch taken.symm.trans same⟩, fun given => given.1⟩
    | some next =>
      have := decidableSteps step allowed next rest
      decidable_of_iff _ (steps_cons taken).symm

theorem observe_cons {seen : S → E → List F} (taken : step s event = some next) (rest : List E) :
    observe step seen s (event :: rest) = seen s event ++ observe step seen next rest := by
  simp only [observe, taken, map_some, getD_some]

/-- An invariant that allowed steps keep holds at the end of every run of allowed steps. -/
theorem exec_invariant (inv : S → Prop)
    (keeps : ∀ s event next, inv s → allowed s event → step s event = some next → inv next)
    (start : inv s) (admitted : Steps step allowed s events)
    (run : exec step s events = some last) : inv last := by
  induction events generalizing s with
  | nil =>
    cases run
    exact start
  | cons event rest ih =>
    obtain ⟨next, taken, remaining⟩ := exec_cons_eq_some step run
    have both := (steps_cons taken).mp admitted
    exact ih (keeps s event next start both.1 taken) both.2 remaining

/-- An invariant with the number of times that one event was taken. -/
theorem exec_counted [DecidableEq E] (inv : S → Nat → Prop) (counted : E)
    (keeps : ∀ s event next n, inv s n → allowed s event → step s event = some next →
      inv next (n + [event].count counted)) {n : Nat} (start : inv s n) (given :
        Steps step allowed s events)
    (run : exec step s events = some last) : inv last (n + events.count counted) := by
  induction events generalizing s n with
  | nil =>
    cases run
    exact start
  | cons event rest ih =>
    obtain ⟨next, taken, remaining⟩ := exec_cons_eq_some step run
    obtain ⟨first, later⟩ := (steps_cons taken).mp given
    have split : (event :: rest).count counted = [event].count counted + rest.count counted :=
      @List.count_append E _ counted [event] rest
    rw [split, ← Nat.add_assoc]
    exact ih (keeps s event next n start first taken) later remaining

/-- With such an invariant, what it implies of an allowed step holds of every step of the run. -/
theorem steps_of_invariant (inv : S → Prop)
    (keeps : ∀ s event next, inv s → allowed s event → step s event = some next → inv next)
    (implies : ∀ s event, inv s → allowed s event → safe s event) (start : inv s)
    (admitted : Steps step allowed s events) : Steps step safe s events := by
  induction events generalizing s with
  | nil => trivial
  | cons event rest ih =>
    refine ⟨implies s event start admitted.1, fun next taken => ?_⟩
    exact ih (keeps s event next start admitted.1 taken) (admitted.2 next taken)

/-- Forward simulation: each allowed step is matched by the abstract run of what is seen of it. -/
theorem exec_simulation {abstract : A → F → Option A} (seen : S → E → List F)
    (related : S → A → Prop) (matched : ∀ s event next a, related s a → allowed s event →
    step s event = some next →
      ∃ b, exec abstract a (seen s event) = some b ∧ related next b) {a : A} (start : related s a)
    (admitted : Steps step allowed s events) (run : exec step s events = some last) :
    ∃ b, exec abstract a (observe step seen s events) = some b ∧ related last b := by
  induction events generalizing s a with
  | nil =>
    cases run
    exact ⟨a, rfl, start⟩
  | cons event rest ih =>
    obtain ⟨next, taken, remaining⟩ := exec_cons_eq_some step run
    have both := (steps_cons taken).mp admitted
    obtain ⟨middle, first, relatedNext⟩ := matched s event next a start both.1 taken
    obtain ⟨b, second, relatedLast⟩ := ih relatedNext both.2 remaining
    refine ⟨b, ?_, relatedLast⟩
    rw [observe_cons taken]
    exact exec_append_of abstract first second

end Run
