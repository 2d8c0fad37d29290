import Xv6.Process.Mlfq

/- How the ticks of a process take it through the levels: timer interrupts, `sys_yield` and the
choices of the scheduler in any order, on any number of CPUs. -/
namespace Xv6.Process.Ticks

open Function Outcome Dispatch Mlfq Option

variable {n level : Nat}

/-- `sys_yield`: it takes back a tick that was counted, and calls `yield`. -/
def sys_yield (k : Kernel) (p : Nat) : Kernel :=
  let k := if (k.proc p).fqtick > 0
    then k.setProc p { k.proc p with fqtick := (k.proc p).fqtick - 1 }
    else k
  k.setProc p { k.proc p with state := .runnable }

inductive Event where
  /-- A timer interrupt on the CPU of the process. -/
  | tick (p : Nat)
  | yield (p : Nat)
  /-- The scan of some CPU meets the process. -/
  | dispatch (p : Nat)
deriving DecidableEq

def step (k : Kernel) : Event → Option Kernel
  | .tick p =>
    if (k.proc p).state = .running then
      (tick_add_MLFQ k p).toOption.map fun (t, yields) =>
        if yields then t.setProc p { t.proc p with state := .runnable } else t
    else none
  | .yield p => if (k.proc p).state = .running then some (sys_yield k p) else none
  | .dispatch p =>
    if p < NPROC ∧ (k.proc p).state = .runnable then (scheduler k p).toOption.map Prod.fst else none

variable {k t u : Kernel} {p q : Nat} {old middle new : Proc} {event : Event} {events : List Event}

/-- What the accounts of a process are made of. -/
structure Stays (old new : Proc) : Prop where
  level : new.level = old.level
  fqtick : new.fqtick = old.fqtick
  isstride : new.isstride = old.isstride
  isthread : new.isthread = old.isthread

theorem Stays.refl (old : Proc) : Stays old old := ⟨rfl, rfl, rfl, rfl⟩

theorem stays_state (k : Kernel) (p q : Nat) (state : ProcState) :
    Stays (k.proc q) ((k.setProc p { k.proc p with state := state }).proc q) :=
  Update.rel ⟨rfl, rfl, rfl, rfl⟩ Stays.refl q

/-- Changing states leaves the queues as they are. -/
theorem requeued_state (good : Represented k) (p : Nat) (state : ProcState) :
    Requeued k (k.setProc p { k.proc p with state := state }) :=
  requeued_of_queues good rfl fun q _ => (stays_state k p q state).level

/-- What an event leaves of the accounts of process `p`. -/
def after (p : Nat) (old : Proc) (event : Event) : Proc :=
  if event = .tick p then ticked old
  else if event = .yield p then { old with fqtick := old.fqtick - 1 }
  else old

theorem sys_yield_eq (k : Kernel) (p : Nat) : sys_yield k p =
    k.setProc p { k.proc p with fqtick := (k.proc p).fqtick - 1, state := .runnable } := by
  unfold sys_yield
  by_cases some : (k.proc p).fqtick > 0
  · rw [if_pos some]
    simp only [Kernel.setProc, update_self, update_idem]
  · have zero : (k.proc p).fqtick - 1 = (k.proc p).fqtick := by omega
    rw [if_neg some, zero]

theorem sys_yield_spec (good : Represented k) (p q : Nat) :
    Requeued k (sys_yield k p) ∧ Stays (after q (k.proc q) (.yield p))
      ((sys_yield k p).proc q) := by
  rw [sys_yield_eq, after, if_neg (nomatch ·), setProc_proc]
  refine ⟨requeued_of_queues good rfl fun r _ => Update.same Proc.level (by rfl) r, ?_⟩
  by_cases here : q = p
  · rw [here, update_self, if_pos rfl]
    exact ⟨rfl, rfl, rfl, rfl⟩
  · rw [update_of_ne here, if_neg (fun same => here (Event.yield.inj same).symm)]
    exact Stays.refl _

/-- The ticks of other processes do not touch the accounts of `p`. -/
theorem tick_other {yields : Bool} (good : Represented k) (calm : ¬ Boosts k q) (other : p ≠ q)
    (ran : tick_add_MLFQ k q = .ok (t, yields)) : t.proc p = k.proc p := by
  have alone := (Sched.tick_returned ran).1
  by_cases inside : (k.proc q).isstride = false ∧ (k.proc q).level < 3
  · obtain ⟨u, same, _, _, others⟩ := tick_spec good alone inside.1 inside.2
    cases same.symm.trans ran
    exact others calm p other
  obtain ⟨u, _, same, _, proc⟩ := tick_outside alone inside
  cases same.symm.trans ran
  rw [proc, update_of_ne other]

/-- The event does not boost. -/
def Unboosted (k : Kernel) : Event → Prop
  | .tick q => ¬ Boosts k q
  | .yield _ | .dispatch _ => True

instance (k : Kernel) (event : Event) : Decidable (Unboosted k event) := by
  rcases event <;> dsimp only [Unboosted] <;> infer_instance

/-- What a step does to the queues and to the accounts of a process in one of them. -/
theorem step_spec (good : Represented k) (held : Held k p) (mlfq : (k.proc p).isstride = false)
    (calm : Unboosted k event) (taken : step k event = some t) :
    Requeued k t ∧ Stays (after p (k.proc p) event) (t.proc p) := by
  cases event with
  | tick q =>
    obtain ⟨_, taken⟩ := ite_none_right_eq_some.mp taken
    obtain ⟨⟨u, yields⟩, ran, rfl⟩ := map_eq_some_iff.mp taken
    have ran := toOption_eq_some.mp ran
    have alone := (Sched.tick_returned ran).1
    obtain ⟨v, _, same, requeued⟩ := tick_requeued good alone
    cases same.symm.trans ran
    have accounts : u.proc p = after p (k.proc p) (.tick q) := by
      by_cases here : q = p
      · subst here
        obtain ⟨v, same, _, own, _⟩ := tick_spec good alone mlfq (good.inside held).2
        cases same.symm.trans ran
        rw [own calm held, update_self, after, if_pos rfl]
      · rw [tick_other good calm (Ne.symm here) ran, after,
          if_neg (fun eq => here (Event.tick.inj eq)),
          if_neg (nomatch ·)]
    rw [← accounts]
    dsimp only
    split
    · exact ⟨requeued.trans (requeued_state requeued.consistent q _), stays_state u q p _⟩
    · exact ⟨requeued, Stays.refl _⟩
  | yield q =>
    obtain ⟨_, taken⟩ := ite_none_right_eq_some.mp taken
    cases taken
    exact sys_yield_spec good q p
  | dispatch q =>
    obtain ⟨_, taken⟩ := ite_none_right_eq_some.mp taken
    obtain ⟨⟨u, chosen⟩, ran, rfl⟩ := map_eq_some_iff.mp taken
    obtain ⟨⟨v, w⟩, result, ends⟩ := bind_eq_ok.mp (toOption_eq_some.mp ran)
    cases ends
    rw [after, if_neg (nomatch ·), if_neg (nomatch ·)]
    obtain ⟨strides, curthread, current, rfl, _⟩ := choose_looked result
    have moved : Requeued k _ := requeued_current good strides curthread current
    have stays := stays_state { k with
      strides := strides
      proc := fun q => { k.proc q with curthread := curthread q }
      queues := fun level => { k.queues level with current := current level } } chosen p .running
    exact ⟨moved.trans (requeued_state moved.consistent chosen _),
      stays.level, stays.fqtick, stays.isstride, stays.isthread⟩

/-- A process in a queue of the MLFQ. -/
structure Enrolled (k : Kernel) (p : Nat) : Prop where
  good : Represented k
  held : Held k p
  mlfq : (k.proc p).isstride = false

theorem after_isstride (p : Nat) (event : Event) (mlfq : old.isstride = false) :
    (after p old event).isstride = false := by
  unfold after ticked
  split
  · split
    · rfl
    · exact mlfq
  · split
    · exact mlfq
    · exact mlfq

theorem Enrolled.next (enrolled : Enrolled k p) (calm : Unboosted k event)
    (taken : step k event = some t) :
    Enrolled t p ∧ Stays (after p (k.proc p) event) (t.proc p) := by
  obtain ⟨requeued, stays⟩ := step_spec enrolled.good enrolled.held enrolled.mlfq calm taken
  refine ⟨⟨requeued.consistent, (requeued.held p).mpr enrolled.held, ?_⟩, stays⟩
  rw [stays.isstride]
  exact after_isstride p event enrolled.mlfq

theorem after_tick (p : Nat) (old : Proc) : after p old (.tick p) = ticked old := if_pos rfl

theorem after_other (notTick : event ≠ .tick p) (notYield : event ≠ .yield p) :
    after p old event = old := by
  rw [after, if_neg notTick, if_neg notYield]

section Schedule

/-- The level after `n` ticks without a yield. -/
def levelAt (n : Nat) : Nat := if n < 20 then 0 else if n < 60 then 1 else 2

/-- The ticks of them that were spent at this level. -/
def usedAt (n : Nat) : Nat := if n < 20 then n else if n < 60 then n - 20 else n - 60

/-- Neither a boost nor a yield of `p`. -/
def Busy (p : Nat) (k : Kernel) (event : Event) : Prop := Unboosted k event ∧ event ≠ .yield p
deriving Decidable

/-- The accounts of `p` are as after `n` ticks. -/
structure OnSchedule (k : Kernel) (p n : Nat) : Prop extends Enrolled k p where
  alone : (k.proc p).isthread = false
  level : (k.proc p).level = levelAt n
  fqtick : (k.proc p).fqtick = usedAt n

/-- The 20th and the 60th tick are the last ones at their levels. -/
theorem spent_schedule (n : Nat) : Spent (levelAt n) (usedAt n + 1) ↔ n = 19 ∨ n = 59 := by
  unfold Spent levelAt usedAt
  split
  · omega
  · split
    · omega
    · omega

theorem schedule_moves (last : n = 19 ∨ n = 59) : levelAt (n + 1) = levelAt n + 1 ∧
    usedAt (n + 1) = 0 := by
  rcases last with rfl | rfl
  · decide
  · decide

theorem schedule_stays (inner : ¬ (n = 19 ∨ n = 59)) :
    levelAt (n + 1) = levelAt n ∧ usedAt (n + 1) = usedAt n + 1 := by
  unfold levelAt usedAt
  obtain top | middle | bottom : n < 19 ∨ 20 ≤ n ∧ n < 59 ∨ 60 ≤ n := by omega
  · simp [show n < 20 by omega, show n + 1 < 20 by omega]
  · simp [show ¬ n < 20 by omega, show ¬ n + 1 < 20 by omega, show n < 60 by omega,
      show n + 1 < 60 by omega]
    omega
  · simp [show ¬ n < 20 by omega, show ¬ n + 1 < 20 by omega, show ¬ n < 60 by omega,
      show ¬ n + 1 < 60 by omega]
    omega

theorem ticked_schedule (level : old.level = levelAt n) (fqtick : old.fqtick = usedAt n) :
    (ticked old).level = levelAt (n + 1) ∧ (ticked old).fqtick = usedAt (n + 1) := by
  unfold ticked
  rw [level, fqtick]
  by_cases last : n = 19 ∨ n = 59
  · rw [if_pos ((spent_schedule n).mpr last), (schedule_moves last).1, (schedule_moves last).2]
    exact ⟨rfl, rfl⟩
  · rw [if_neg (fun spent => last ((spent_schedule n).mp spent)), (schedule_stays last).1,
      (schedule_stays last).2]
    exact ⟨rfl, rfl⟩

theorem ticked_isthread (old : Proc) : (ticked old).isthread = old.isthread := by
  unfold ticked
  split
  · rfl
  · rfl

theorem OnSchedule.next (given : OnSchedule k p n) (busy : Busy p k event)
    (taken : step k event = some t) :
    OnSchedule t p (n + [event].count (.tick p)) := by
  obtain ⟨enrolled, stays⟩ := given.toEnrolled.next busy.1 taken
  by_cases here : event = .tick p
  · subst here
    rw [after_tick] at stays
    obtain ⟨level, fqtick⟩ := ticked_schedule given.level given.fqtick
    refine ⟨enrolled, ?_, ?_, ?_⟩
    · rw [stays.isthread, ticked_isthread, given.alone]
    · rw [stays.level, level, List.count_singleton_self]
    · rw [stays.fqtick, fqtick, List.count_singleton_self]
  · rw [after_other here busy.2] at stays
    rw [List.count_singleton, if_neg (by simpa using here), Nat.add_zero]
    exact ⟨enrolled, stays.isthread.trans given.alone, stays.level.trans given.level,
      stays.fqtick.trans given.fqtick⟩

/-- The level of a process that never yields follows from its ticks alone, whatever the others do. A
tick asks for a yield if it is the 5th, 10th or 20th of those at its level. -/
theorem level_schedule (k : Kernel) (p : Nat) (good : Represented k) (held : Held k p)
    (mlfq : (k.proc p).isstride = false) (alone : (k.proc p).isthread = false)
    (top : (k.proc p).level = 0) (fresh : (k.proc p).fqtick = 0) (events : List Event) (t : Kernel)
    (run : Run.exec step k events = some t) (busy : Run.Steps step (Busy p) k events) :
    (t.proc p).level = levelAt (events.count (.tick p)) ∧
    ∃ u, tick_add_MLFQ t p = .ok (u, decide (
      if events.count (.tick p) < 20 then (events.count (.tick p) + 1) % 5 = 0
      else if events.count (.tick p) < 60 then (events.count (.tick p) - 20 + 1) % 10 = 0
      else (events.count (.tick p) - 60 + 1) % 20 = 0)) := by
  have start : OnSchedule k p 0 := ⟨⟨good, held, mlfq⟩, alone, top, fresh⟩
  have last := Run.exec_counted (fun k => OnSchedule k p) (.tick p)
    (fun _ _ _ _ given busy taken => given.next busy taken) start busy run
  rw [Nat.zero_add] at last
  generalize events.count (.tick p) = n at last
  refine ⟨last.level, ?_⟩
  obtain ⟨u, returned, _⟩ := tick_spec last.good last.alone last.mlfq (last.good.inside last.held).2
  refine ⟨u, returned.trans ?_⟩
  rw [last.level, last.fqtick]
  unfold levelAt usedAt
  by_cases first : n < 20
  · simp [first, length]
  · by_cases second : n < 60
    · simp [first, second, length]
    · simp [first, second, length]

/-- A machine that runs one process. -/
def single : Kernel :=
  let k := (push_MLFQ (Kernel.boot smallMem) 3 0).1
  k.setProc 3 { k.proc 3 with state := .running }

theorem single_enrolled : Enrolled single 3 := by
  obtain ⟨k, pushed, good, held, _⟩ := push_boot (by decide : 0 < 3)
  have requeued := requeued_state good 3 .running
  have same : single = k.setProc 3 { k.proc 3 with state := .running } := by
    unfold single
    rw [pushed]
  rw [← same] at requeued
  exact ⟨requeued.consistent, (requeued.held 3).mpr held, by decide +kernel⟩

/-- Its first 21 ticks. -/
theorem level_schedule_single : ∃ t,
    Run.exec step single
      ((List.replicate 4 (List.replicate 5 (.tick 3) ++ [.dispatch 3])).flatten ++
      [.tick 3]) = some t ∧ (t.proc 3).level = 1 := by
  obtain ⟨t, run⟩ := isSome_iff_exists.mp (show (Run.exec step single
    ((List.replicate 4 (List.replicate 5 (.tick 3) ++ [.dispatch 3])).flatten ++
      [.tick 3])).isSome = true by decide +kernel)
  have result :=
    level_schedule single 3 single_enrolled.good single_enrolled.held single_enrolled.mlfq
    (by decide +kernel) (by decide +kernel) (by decide +kernel) _ t run (by decide +kernel)
  exact ⟨t, run, result.1.trans (by decide +kernel)⟩

end Schedule

section Yielding

/-- A tick is taken back only where none is counted. -/
def Honest (p : Nat) (k : Kernel) : Event → Prop
  | .yield q => q = p → (k.proc p).fqtick = 0
  | .tick _ | .dispatch _ => True

instance (p : Nat) (k : Kernel) (event : Event) : Decidable (Honest p k event) := by
  rcases event <;> dsimp only [Honest] <;> infer_instance

/-- The ticks of a level that has a next one. -/
def limit (level : Nat) : Nat := if level = 0 then 20 else 40

/-- Since it was at `level`, `n` ticks were charged to the process. -/
structure Lingers (k : Kernel) (p level n : Nat) : Prop extends Enrolled k p where
  accounts : level < (k.proc p).level ∨
    (k.proc p).level = level ∧ n ≤ (k.proc p).fqtick ∧ (0 < n → (k.proc p).fqtick < limit level)

theorem ticked_lingers (upper : level = 0 ∨ level = 1)
    (accounts : level < old.level ∨ old.level = level ∧ n ≤ old.fqtick ∧
      (0 < n → old.fqtick < limit level)) :
    level < (ticked old).level ∨ (ticked old).level = level ∧ n + 1 ≤ (ticked old).fqtick ∧
      (0 < n + 1 → (ticked old).fqtick < limit level) := by
  unfold ticked
  by_cases spent : Spent old.level (old.fqtick + 1)
  · rw [if_pos spent]
    left
    show level < old.level + 1
    omega
  rw [if_neg spent]
  rcases accounts with left | ⟨here, counted, _⟩
  · exact .inl left
  right
  show old.level = level ∧ n + 1 ≤ old.fqtick + 1 ∧ (0 < n + 1 → old.fqtick + 1 < limit level)
  unfold Spent at spent
  unfold limit
  refine ⟨here, by omega, fun _ => ?_⟩
  split
  · omega
  · omega

theorem Lingers.next (given : Lingers k p level n) (upper : level = 0 ∨ level = 1)
    (calm : Unboosted k event) (honest : Honest p k event) (taken : step k event = some t) :
    Lingers t p level (n + [event].count (.tick p)) := by
  obtain ⟨enrolled, stays⟩ := given.toEnrolled.next calm taken
  refine ⟨enrolled, ?_⟩
  rw [stays.level, stays.fqtick]
  by_cases here : event = .tick p
  · subst here
    rw [after_tick, List.count_singleton_self]
    exact ticked_lingers upper given.accounts
  rw [List.count_singleton, if_neg (by simpa using here), Nat.add_zero]
  by_cases yields : event = .yield p
  · subst yields
    have zero : (k.proc p).fqtick = 0 := honest rfl
    rw [after, if_neg here, if_pos rfl]
    show _ ∨ _ ∧ n ≤ (k.proc p).fqtick - 1 ∧ (0 < n → (k.proc p).fqtick - 1 < limit level)
    have accounts := given.accounts
    rw [zero] at accounts ⊢
    exact accounts
  · rw [after_other here yields]
    exact given.accounts

/-- A process that yields only before a tick is counted leaves the top level by its 20th tick there,
and the middle one by its 40th. -/
theorem yielding_leaves (k : Kernel) (p : Nat) (good : Represented k) (held : Held k p)
    (mlfq : (k.proc p).isstride = false) (events : List Event) (t : Kernel)
    (run : Run.exec step k events = some t) (calm : Run.Steps step Unboosted k events)
    (honest : Run.Steps step (Honest p) k events) :
    ((k.proc p).level = 0 → 20 ≤ events.count (.tick p) → 0 < (t.proc p).level) ∧
    ((k.proc p).level = 1 → 40 ≤ events.count (.tick p) → 1 < (t.proc p).level) := by
  have lingers : ∀ level, level = 0 ∨ level = 1 → (k.proc p).level = level →
      limit level ≤ events.count (.tick p) → level < (t.proc p).level := by
    intro level upper here many
    have start : Lingers k p level 0 :=
      ⟨⟨good, held, mlfq⟩, .inr ⟨here, Nat.zero_le _, fun no => by omega⟩⟩
    have last := Run.exec_counted (fun k => Lingers k p level) (.tick p)
      (fun _ _ _ _ given allowed taken => given.next upper allowed.1 allowed.2 taken) start
      (calm.and honest) run
    rw [Nat.zero_add] at last
    have some : 0 < limit level := by
      unfold limit
      split <;> omega
    rcases last.accounts with left | ⟨_, counted, bound⟩
    · exact left
    · have := bound (by omega)
      omega
  exact ⟨lingers 0 (.inl rfl), lingers 1 (.inr rfl)⟩

theorem yielding_leaves_single : ∃ t, Run.exec step single (.yield 3 :: .dispatch 3 ::
      (List.replicate 4 (List.replicate 5 (.tick 3) ++ [.dispatch 3])).flatten) = some t ∧
    0 < (t.proc 3).level := by
  obtain ⟨t, run⟩ := isSome_iff_exists.mp (show (Run.exec step single (.yield 3 :: .dispatch 3 ::
      (List.replicate 4 (List.replicate 5 (.tick 3) ++ [.dispatch 3])).flatten)).isSome = true by
    decide +kernel)
  have result :=
    yielding_leaves single 3 single_enrolled.good single_enrolled.held single_enrolled.mlfq
    _ t run (by decide +kernel) (by decide +kernel)
  exact ⟨t, run, result.1 (by decide +kernel) (by decide +kernel)⟩

/-- A process that yields after each tick is at the top level after 25 of them. -/
theorem yielding_stays : ∃ t,
    Run.exec step single (List.replicate 25 [.tick 3, .yield 3, .dispatch 3]).flatten = some t ∧
    Run.Steps step Unboosted single (List.replicate 25 [.tick 3, .yield 3, .dispatch 3]).flatten ∧
    Represented single ∧ Held single 3 ∧ (single.proc 3).isstride = false ∧
    (single.proc 3).level = 0 ∧ (t.proc 3).level = 0 ∧
    (List.replicate 25 [Event.tick 3, .yield 3, .dispatch 3]).flatten.count (.tick 3) = 25 := by
  have whole :
    (Run.exec step single (List.replicate 25 [.tick 3, .yield 3, .dispatch 3]).flatten).map
      (fun t => (t.proc 3).level) = some 0 := by decide +kernel
  obtain ⟨t, run, level⟩ := map_eq_some_iff.mp whole
  exact ⟨t, run, by decide +kernel, single_enrolled.good, single_enrolled.held,
      single_enrolled.mlfq,
    by decide +kernel, level, by decide +kernel⟩

end Yielding

end Xv6.Process.Ticks
