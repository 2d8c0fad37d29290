import Xv6.Process.Rebase
import Xv6.Process.Shares

/- The pass values. They stay small as long as nobody pays beyond the limit of `choose_lowpass`; its
rebasing, which should bring them back, writes behind the array. -/
namespace Xv6.Process.Sched

open Outcome Calls Dispatch Seats

variable {k t u : Kernel} {p q : Nat} {m : Machine} {event : Event}

/-- What a step does to the pass of entry `i`. -/
inductive PassAfter (m : Machine) (t : Kernel) (event : Event) (i : Nat) : Prop where
  | same (pass : (t.strides i).pass = (m.k.strides i).pass)
  | cleared (pass : (t.strides i).pass = 0)
  | entered (p : Nat) (portion stride₀ : Int) (isCall : event = .setCpuShare p portion)
      (pass : (t.strides i).pass = minPass (left m.k (int (100 - total m.k portion)) stride₀))
  | ticked (p : Nat) (isTick : event = .tick p) (payer : i = (m.k.proc p).mystride)
      (pass : (t.strides i).pass = int ((m.k.strides i).pass + (m.k.strides i).stride))
  | charged (p : Nat) (isChoice : event = .schedule p) (first : i = 0)
      (pass : (t.strides i).pass = int ((m.k.strides i).pass + (m.k.strides i).stride))

theorem turn_pass (ready : Ready m.k) (turn : Turn m t event) (i : Nat) :
    PassAfter m t event i := by
  cases turn_strides ready turn with
  | same strides => exact .same (by rw [strides])
  | back h stride holder divided strides =>
    have entry := giveBack_strides m.k (m.k.proc h).mystride stride i
    rw [← strides] at entry
    split at entry
    · exact .cleared (by rw [entry])
    · split at entry
      · rename_i first
        exact .same (by rw [entry, first])
      · exact .same (by rw [entry])
  | granted p portion j isCall granted =>
    obtain ⟨_, stride₀, stride, _, _, _, _, strides⟩ := granted.strides
    have entry := strides i
    split at entry
    · exact .entered p portion stride₀ isCall (by rw [entry])
    · split at entry
      · rename_i first
        exact .same (by rw [entry, first])
      · exact .same (by rw [entry])
  | ticked p isTick strides =>
    have entry := paid_strides m.k p i
    rw [← strides] at entry
    split at entry
    · rename_i payer
      exact .ticked p isTick payer (by rw [entry])
    · exact .same (by rw [entry])
  | charged p isChoice strides =>
    have entry := charge_strides m.k i
    rw [← strides] at entry
    split at entry
    · rename_i first
      exact .charged p isChoice first (by rw [entry])
    · exact .same (by rw [entry])

/-- The passes are not negative, and not above the start value of the search for the least one. -/
def Bounded (k : Kernel) : Prop := ∀ i, 0 ≤ (k.strides i).pass ∧ (k.strides i).pass ≤ 220000000

theorem minPass_bounds {low high : Int} (start : low ≤ 220000000 ∧ 220000000 ≤ high)
    (bounded : ∀ i, low ≤ (k.strides i).pass ∧ (k.strides i).pass ≤ high) :
    low ≤ minPass k ∧ minPass k ≤ high := by
  unfold minPass
  generalize (220000000 : Int) = least at start ⊢
  generalize List.range NPROC = list
  induction list generalizing least with
  | nil => exact start
  | cons l rest ih =>
    rw [List.foldl_cons]
    apply ih
    split
    · exact bounded l
    · exact start

theorem left_pass (k : Kernel) (share stride : Int) (i : Nat) :
    ((left k share stride).strides i).pass = (k.strides i).pass := by
  by_cases first : i = 0
  · show (Function.update k.strides 0 _ i).pass = _
    rw [first, Function.update_self]
  · rw [left_strides first]

/-- Who pays is not beyond the limit yet; and if a choice is made, it compares such an entry. -/
def Moderate (m : Machine) : Event → Prop
  | .setCpuShare _ portion => 1 ≤ portion ∧ portion ≤ 100
  | .tick p => (m.k.strides (m.k.proc p).mystride).pass ≤ 200000000
  | .schedule _ => (m.k.strides 0).pass ≤ 200000000 ∧ Unrebased m.k
  | .call _ => True

instance (m : Machine) (event : Event) : Decidable (Moderate m event) := by
  rcases event <;> dsimp only [Moderate] <;> infer_instance

theorem Moderate.percent (moderate : Moderate m event) : Percent event := by
  cases event with
  | setCpuShare p portion => exact moderate
  | call | tick | schedule => trivial

theorem Ledger.pays (ledger : Ledger k) (bounded : Bounded k) (i : Nat) :
    int ((k.strides i).pass + (k.strides i).stride) = (k.strides i).pass + (k.strides i).stride ∧
      0 ≤ (k.strides i).stride ∧ (k.strides i).stride ≤ 100000 := by
  have bounds := ledger.stride i
  have ticket : (MAXTICKET : Int) = 100000 := rfl
  obtain ⟨lower, upper⟩ := bounded i
  exact ⟨int_eq (by omega) (by omega), bounds.1, by omega⟩

theorem bounded_turn (ready : Ready m.k) (ledger : Ledger m.k) (bounded : Bounded m.k)
    (moderate : Moderate m event) (turn : Turn m t event) : Bounded t := by
  intro i
  obtain ⟨exact, positive, small⟩ := ledger.pays bounded i
  have before := bounded i
  cases turn_pass ready turn i with
  | same pass =>
    rw [pass]
    exact before
  | cleared pass =>
    rw [pass]
    decide
  | entered p portion stride₀ isCall pass =>
    rw [pass]
    refine minPass_bounds ⟨by decide, Int.le_refl _⟩ fun l => ?_
    rw [left_pass]
    exact bounded l
  | ticked p isTick payer pass =>
    rw [isTick, Moderate, ← payer] at moderate
    rw [pass, exact]
    omega
  | charged p isChoice first pass =>
    rw [isChoice, Moderate, ← first] at moderate
    rw [pass, exact]
    omega

theorem bounded_boot (fresh : Seats.Fresh k) : Bounded k := by
  intro i
  obtain ⟨p, first⟩ := fresh.first
  have zero : (k.strides i).pass = 0 := by
    by_cases isFirst : i = 0
    · rw [isFirst, first]
    · rw [fresh.others i isFirst]
  rw [zero]
  decide

/-- What the choice leaves of the entries: the passes as they are, or entry 0 has paid once. -/
def Unmoved (k t : Kernel) : Prop :=
  t.strides = k.strides ∨
  (t.strides 0).pass = (k.strides 0).pass + (k.strides 0).stride ∧ ∀ i, i ≠ 0 →
    t.strides i = k.strides i

/-- In every state of every run in which nobody beyond the limit pays: the passes are in range, no
payment overflows, and `scheduler` leaves the passes without rebasing them. -/
theorem passes_bounded (mem : Vm.Mem) (code : Nat → UInt8) (k : Kernel)
    (booted : userinit (Kernel.boot mem) code = .ok k) (events : List Event)
    (moderate : Run.Steps step Moderate (Machine.start k) events) (m : Machine)
    (run : Run.exec step (Machine.start k) events = some m) :
    (∀ i, 0 ≤ (m.k.strides i).pass ∧ (m.k.strides i).pass < 2 ^ 31) ∧
    (∀ i, int ((m.k.strides i).pass + (m.k.strides i).stride) =
      (m.k.strides i).pass + (m.k.strides i).stride) ∧
    ∀ p, (m.k.proc p).state = .runnable → Moderate m (.schedule p) →
      ∃ t w, scheduler m.k p = .ok (t, w) ∧ Unmoved m.k t := by
  have fresh := fresh_userinit booted
  obtain ⟨⟨ready, linked⟩, ledger, bounded⟩ : (Ready m.k ∧ Linked m.k) ∧ Ledger m.k ∧
      Bounded m.k := by
    refine Run.exec_invariant (fun m => (Ready m.k ∧ Linked m.k) ∧ Ledger m.k ∧ Bounded m.k) ?_
      ⟨run_ready booted (Run.exec_nil step _), (orderly_boot fresh).ledger, bounded_boot fresh⟩
      moderate run
    rintro m event next ⟨⟨ready, linked⟩, ledger, bounded⟩ moderate taken
    have turn := step_turn linked taken
    exact ⟨⟨ready_turn ready turn, linked_turn ready linked turn⟩,
      ledger_turn ready ledger moderate.percent turn,
        bounded_turn ready ledger bounded moderate turn⟩
  refine ⟨fun i => ?_, fun i => (ledger.pays bounded i).1, fun p runnable moderate => ?_⟩
  · have bounds := bounded i
    omega
  obtain ⟨t, w, result⟩ := choose_ends ready moderate.2 p
  refine ⟨_, w, bind_eq_ok.mpr ⟨_, result, rfl⟩, ?_⟩
  rw [Unmoved, setProc_strides]
  rcases (choose_eq ready runnable result).2 with looked | looked
  · exact .inl looked.strides
  · rw [looked.strides]
    refine .inr ⟨?_, fun i other => ?_⟩
    · rw [charge_strides, if_pos rfl]
      exact (ledger.pays bounded 0).1
    · rw [charge_strides, if_neg other]

theorem passes_bounded_small : ∃ k m, userinit (Kernel.boot smallMem) (fun _ => 0) = .ok k ∧
    Run.exec step (Machine.start k) shareTaken = some m ∧ (m.k.proc 0).state = .runnable ∧
    ∃ t w, scheduler m.k 0 = .ok (t, w) ∧ Unmoved m.k t := by
  obtain ⟨k, m, booted, ends, moderate, runnable, choice⟩ := run_small step Machine.start shareTaken
    (fun k m => Run.Steps step Moderate (Machine.start k) shareTaken ∧
      (m.k.proc 0).state = .runnable ∧
      Moderate m (.schedule 0)) (by decide +kernel)
  exact ⟨k, m, booted, ends, runnable,
    (passes_bounded smallMem _ k booted _ moderate m ends).2.2 0 runnable choice⟩

/-- The share is taken, and init alone pays until its pass is beyond the limit: `choose_lowpass`
then takes the branch that writes behind `stride_arr`. -/
theorem rebasing_outside : ∃ k events m, userinit (Kernel.boot smallMem) (fun _ => 0) = .ok k ∧
    Run.exec step (Machine.start k) (shareTaken ++ events) = some m ∧
    200000000 < (m.k.strides 0).pass + (m.k.strides 0).stride ∧
    (choose_lowpass m.k = .error .undefined ∨ choose_lowpass (charge m.k) = .error .undefined) := by
  obtain ⟨k, m, booted, run, solo⟩ := solo_small
  obtain ⟨events, last, climbed, final, high, _⟩ := solo.climbs
  refine ⟨k, events, last, booted, Run.exec_append_of _ run climbed, ?_, ?_⟩
  · by_contra small
    have stride := final.stride
    have least := final.pass
    refine high ⟨⟨0, by decide, .inl rfl, by omega⟩, ⟨0, by decide, .inl rfl, ?_⟩⟩
    rw [charge_strides, if_pos rfl]
    dsimp only
    rw [int_eq (by omega) (by omega)]
    omega
  · by_cases low : Low last.k
    · exact .inr (choose_lowpass_rebases final.ready.charge fun next => high ⟨low, next⟩)
    · exact .inl (choose_lowpass_rebases final.ready low)

end Xv6.Process.Sched
