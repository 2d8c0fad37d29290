import Xv6.Process.Ticks

/- The time quantum of a share holder. Its ticks are counted in `fqtick`, which `set_cpu_share`
clears and nothing clears again. -/
namespace Xv6.Process.Quantum

open Function Outcome Ticks Mlfq Option List

variable {k t u : Kernel} {p q level ticks : Nat} {event : Event} {events : List Event}

/-- A share holder without threads that was charged `ticks`. -/
structure Holder (k : Kernel) (p ticks : Nat) : Prop where
  isstride : (k.proc p).isstride = true
  isthread : (k.proc p).isthread = false
  level : (k.proc p).level = 3
  fqtick : (k.proc p).fqtick = ticks

theorem Holder.same (holder : Holder k p ticks) (same : t.proc p = k.proc p) :
    Holder t p ticks := by
  constructor
  all_goals rw [same]
  · exact holder.isstride
  · exact holder.isthread
  · exact holder.level
  · exact holder.fqtick

theorem holder_tick (holder : Holder k p ticks) :
    ∃ t, tick_add_MLFQ k p = .ok (t, decide (5 < ticks + 1)) ∧ Holder t p (ticks + 1) ∧
      (t.proc p).state = (k.proc p).state := by
  obtain ⟨isstride, isthread, level, rfl⟩ := holder
  have stride : ((Sched.paid k p).proc p).isstride = true := isstride
  obtain ⟨t, isAfter⟩ : ∃ t, t = (Sched.paid k p).setProc p
      { k.proc p with fqtick := (k.proc p).fqtick + 1 } := ⟨_, rfl⟩
  have own : t.proc p = { k.proc p with fqtick := (k.proc p).fqtick + 1 } := by
    rw [isAfter, setProc_self]
  refine ⟨t, ?_, ⟨?_, ?_, ?_, ?_⟩, ?_⟩
  · unfold tick_add_MLFQ
    show (if ((Sched.paid k p).proc p).isstride then _ else _) = _
    rw [if_pos stride]
    refine bind_eq_ok.mpr ⟨t, isAfter ▸ increasealltick_alone isthread, ?_⟩
    rw [own]
  all_goals rw [own]
  · exact isstride
  · exact isthread
  · exact level

theorem level_change_other {found : Bool} (other : p ≠ q)
    (ran : level_change_MLFQ k q level = .ok (t, found)) : t.proc p = k.proc p := by
  obtain ⟨⟨u, popped⟩, pop, ran⟩ := bind_eq_ok.mp ran
  obtain ⟨_, ⟨no, same, _⟩ | ⟨_, yes, _, _, table, _⟩⟩ := pop_cases pop
  · rw [no] at ran
    cases ran
    rw [same]
  rw [yes] at ran
  have isPush : t = (push_MLFQ u q level).1 := congrArg Prod.fst (Except.ok.inj ran).symm
  rw [isPush]
  rcases push_cases u q level with ⟨same, _⟩ | ⟨_, v, _, _, same, pushed, _⟩
  · rw [same, table, update_of_ne other]
  · rw [same, pushed, update_of_ne other, table, update_of_ne other]

/-- `boost_priority` passes over a process that is in no queue. -/
theorem boost_other (high : (k.proc p).level = 3) (ran : boost_priority k = .ok t) :
    t.proc p = k.proc p := by
  obtain ⟨u, loop, ran⟩ := bind_eq_ok.mp ran
  cases ran
  refine foldlM_ok (fun _ v => v.proc p = k.proc p) ?_ rfl loop
  intro _ q _ v w _ kept round
  split at round
  · rename_i low
    obtain ⟨⟨x, found⟩, changed, round⟩ := bind_eq_ok.mp round
    cases round
    have other : p ≠ q := by
      rintro rfl
      rw [kept] at low
      omega
    exact (level_change_other other changed).trans kept
  · cases round
    exact kept

theorem tick_other {yields : Bool} (high : (k.proc p).level = 3) (other : p ≠ q)
    (ran : tick_add_MLFQ k q = .ok (t, yields)) : t.proc p = k.proc p := by
  have alone := (Sched.tick_returned ran).1
  by_cases inside : (k.proc q).isstride = false ∧ (k.proc q).level < 3
  · rw [tick_add_eq alone inside.1 inside.2] at ran
    obtain ⟨⟨u, moved⟩, demotes, ends⟩ := bind_eq_ok.mp ran
    have counted : (counted k q).proc p = k.proc p := by
      rw [counted_proc, update_of_ne other]
    have before : u.proc p = k.proc p := by
      unfold demoted at demotes
      split at demotes
      · exact (level_change_other other demotes).trans counted
      · cases demotes
        exact counted
    rw [← before]
    rw [← before] at high
    unfold quantum at ends
    dsimp only at ends
    split at ends
    · split at ends
      · obtain ⟨v, boosted, ends⟩ := bind_eq_ok.mp ends
        cases ends
        exact boost_other high boosted
      · cases ends
        rfl
    · cases ends
      rfl
  · obtain ⟨u, _, same, _, proc⟩ := tick_outside alone inside
    cases same.symm.trans ran
    rw [proc, update_of_ne other]

theorem holder_step (holder : Holder k p ticks) (undisturbed : event ≠ .yield p)
    (taken : step k event = some t) : Holder t p (ticks + [event].count (.tick p)) := by
  have state : ∀ {u : Kernel} {ticks q : Nat} {state : ProcState}, Holder u p ticks →
      Holder (u.setProc q { u.proc q with state := state }) p ticks := by
    intro u ticks q state holder
    by_cases here : p = q
    · obtain ⟨isstride, isthread, level, fqtick⟩ := holder
      constructor
      all_goals rw [setProc_proc, here, update_self, ← here]
      · exact isstride
      · exact isthread
      · exact level
      · exact fqtick
    · exact holder.same (update_of_ne here _ _)
  cases event with
  | tick q =>
    obtain ⟨_, taken⟩ := ite_none_right_eq_some.mp taken
    obtain ⟨⟨u, yields⟩, ran, rfl⟩ := map_eq_some_iff.mp taken
    have ran := toOption_eq_some.mp ran
    have after : Holder u p (ticks + [Event.tick q].count (.tick p)) := by
      by_cases here : q = p
      · rw [here] at ran ⊢
        obtain ⟨v, same, holder, _⟩ := holder_tick holder
        cases same.symm.trans ran
        rwa [count_singleton_self]
      · rw [count_singleton, if_neg (by simpa using here)]
        exact holder.same (tick_other holder.level (Ne.symm here) ran)
    dsimp only
    split
    · exact state after
    · exact after
  | yield q =>
    obtain ⟨_, taken⟩ := ite_none_right_eq_some.mp taken
    cases taken
    have other : p ≠ q := fun same => undisturbed (same ▸ rfl)
    exact holder.same (by rw [Ticks.sys_yield_eq, setProc_of_ne other])
  | dispatch q =>
    obtain ⟨_, taken⟩ := ite_none_right_eq_some.mp taken
    obtain ⟨⟨u, chosen⟩, ran, rfl⟩ := map_eq_some_iff.mp taken
    obtain ⟨⟨v, w⟩, result, ends⟩ := bind_eq_ok.mp (toOption_eq_some.mp ran)
    cases ends
    obtain ⟨strides, curthread, current, rfl, _⟩ := Dispatch.choose_looked result
    exact state ⟨holder.isstride, holder.isthread, holder.level, holder.fqtick⟩

theorem holder_run (holder : Holder k p ticks) (undisturbed : Event.yield p ∉ events)
    (run : Run.exec step k events = some t) : Holder t p (ticks + events.count (.tick p)) := by
  induction events generalizing k ticks with
  | nil =>
    cases run
    exact holder
  | cons event rest ih =>
    obtain ⟨next, taken, run⟩ := Run.exec_cons_eq_some step run
    rw [mem_cons, not_or] at undisturbed
    obtain ⟨here, later⟩ := undisturbed
    have after := ih (holder_step holder (Ne.symm here) taken) later run
    rwa [Nat.add_assoc, ← count_append] at after

/-- Whatever the other processes do, as long as `p` does not yield its first four ticks do not make
it. -/
def Guaranteed (k : Kernel) (p : Nat) : Prop :=
  ∀ events t, Run.exec step k events = some t → Event.yield p ∉ events →
    events.count (.tick p) < 4 →
    ∃ u, tick_add_MLFQ t p = .ok (u, false)

theorem ticks_run {n : Nat} (holder : Holder k p ticks) (running : (k.proc p).state = .running)
    (few : ticks + n ≤ 5) : ∃ t, Run.exec step k (List.replicate n (.tick p)) = some t := by
  induction n generalizing k ticks with
  | zero => exact ⟨k, rfl⟩
  | succ n ih =>
    obtain ⟨u, ran, after, state⟩ := holder_tick holder
    have taken : step k (.tick p) = some u := by
      show (if _ then _ else _) = _
      rw [if_pos running, ran, decide_eq_false (by omega)]
      rfl
    rw [replicate_succ, Run.exec_cons_of_step step taken]
    exact ih after (state.trans running) (by omega)

/-- When a share holder is dispatched, it has at least five ticks until it has to yield if and only
if it is without threads and its counter is still near zero. -/
theorem quantum_guaranteed_iff (k : Kernel) (p : Nat) (holder : (k.proc p).isstride = true)
    (level : (k.proc p).level = 3) (running : (k.proc p).state = .running) :
    Guaranteed k p ↔ (k.proc p).isthread = false ∧ (k.proc p).fqtick ≤ 1 := by
  constructor
  · intro guaranteed
    obtain ⟨u, first⟩ := guaranteed [] k rfl not_mem_nil (Nat.zero_lt_succ 3)
    have alone := (Sched.tick_returned first).1
    refine ⟨alone, ?_⟩
    by_contra many
    have start : Holder k p (k.proc p).fqtick := ⟨holder, alone, level, rfl⟩
    -- the counter passes 5 at the fourth tick or before
    obtain ⟨n, small, passed, few⟩ : ∃ n, n < 4 ∧ 5 < (k.proc p).fqtick + n + 1 ∧
        (n = 0 ∨ (k.proc p).fqtick + n ≤ 5) := by
      by_cases large : 5 < (k.proc p).fqtick
      · exact ⟨0, by omega, by omega, .inl rfl⟩
      · exact ⟨5 - (k.proc p).fqtick, by omega, by omega, .inr (by omega)⟩
    obtain ⟨t, run⟩ : ∃ t, Run.exec step k (List.replicate n (.tick p)) = some t := by
      rcases few with rfl | few
      · exact ⟨k, rfl⟩
      · exact ticks_run start running few
    have undisturbed : Event.yield p ∉ List.replicate n (.tick p) :=
      fun member => nomatch eq_of_mem_replicate member
    have counted : (List.replicate n (Event.tick p)).count (.tick p) = n := count_replicate_self
    obtain ⟨v, calm⟩ := guaranteed _ t run undisturbed (by omega)
    obtain ⟨w, asks, _⟩ := holder_tick (holder_run start undisturbed run)
    rw [counted, decide_eq_true passed] at asks
    cases asks.symm.trans calm
  · rintro ⟨alone, few⟩ events t run undisturbed count
    obtain ⟨u, returned, _⟩ := holder_tick (holder_run ⟨holder, alone, level, rfl⟩ undisturbed run)
    rw [decide_eq_false (by omega)] at returned
    exact ⟨u, returned⟩

/-- The first process takes a share; at the sixth tick it has to yield, and it is dispatched
again. -/
def turns (n : Nat) : List Sched.Event :=
  [.schedule 0, .setCpuShare 0 20] ++ List.replicate n (.tick 0) ++ if n = 0 then []
    else [.schedule 0]

theorem quantum_guaranteed_first : ∃ k m, userinit (Kernel.boot smallMem) (fun _ => 0) = .ok k ∧
    Run.exec Sched.step (Calls.Machine.start k) (turns 0) = some m ∧ Guaranteed m.k 0 := by
  obtain ⟨k, m, booted, ends, holder, level, running, condition⟩ :=
    run_small Sched.step Calls.Machine.start (turns 0) (fun _ m => (m.k.proc 0).isstride = true ∧
      (m.k.proc 0).level = 3 ∧ (m.k.proc 0).state = .running ∧ (m.k.proc 0).isthread = false ∧
      (m.k.proc 0).fqtick ≤ 1) (by decide +kernel)
  exact ⟨k, m, booted, ends, (quantum_guaranteed_iff m.k 0 holder level running).mpr condition⟩

/-- On its second turn the first tick makes it yield. -/
theorem quantum_cut_second : ∃ k m t, userinit (Kernel.boot smallMem) (fun _ => 0) = .ok k ∧
    Run.exec Sched.step (Calls.Machine.start k) (turns 6) = some m ∧ (m.k.proc 0).isstride = true ∧
    (m.k.proc 0).state = .running ∧ tick_add_MLFQ m.k 0 = .ok (t, true) := by
  obtain ⟨k, m, booted, ends, holder, running, asks⟩ :=
    run_small Sched.step Calls.Machine.start (turns 6) (fun _ m => (m.k.proc 0).isstride = true ∧
      (m.k.proc 0).state = .running ∧ (tick_add_MLFQ m.k 0).toOption.map Prod.snd = some true)
      (by decide +kernel)
  obtain ⟨⟨t, yields⟩, ran, rfl⟩ := map_eq_some_iff.mp asks
  exact ⟨k, m, t, booted, ends, holder, running, toOption_eq_some.mp ran⟩

end Xv6.Process.Quantum
