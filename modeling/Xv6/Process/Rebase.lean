import Xv6.Process.Sched

/- `scheduler` dispatches RUNNABLE processes as long as no pass is rebased. A pass that nobody keeps
small grows beyond the limit, and then the code writes behind `stride_arr`. -/
namespace Xv6.Process.Sched

open Function Outcome Calls Dispatch Seats Option

variable {k t u : Kernel} {p q : Nat} {m next : Machine}

/-- init forks a child that takes 80 percent and goes to sleep. -/
def shareTaken : List Event :=
  [.schedule 0, .call (.fork 0), .call (.yield 0), .schedule 1, .setCpuShare 1 80,
    .call (.sleep 1 (some (.other 99)))]

/-- The processes are in the table. -/
structure Inside (m : Machine) : Prop where
  table : ∀ q, NPROC ≤ q → (m.k.proc q).state = .unused
  cpu : ∀ q, m.cpu q = true → q < NPROC

/-- The steps of `shareTaken`. -/
def Simple : Event → Prop
  | .call (.fork _) | .call (.yield _) | .call (.sleep ..) | .setCpuShare .. | .schedule _ => True
  | _ => False

theorem Inside.leave {new : Proc} (inside : Inside m) (onCpu : m.cpu p = true) :
    Inside (m.leave p new) := by
  constructor
  · intro q beyond
    have small := inside.cpu p onCpu
    show (update m.k.proc p new q).state = .unused
    rw [update_of_ne (by omega)]
    exact inside.table q beyond
  · intro q onCpu
    change update m.cpu p false q = true at onCpu
    by_cases same : q = p
    · rw [same, update_self] at onCpu
      cases onCpu
    · rw [update_of_ne same] at onCpu
      exact inside.cpu q onCpu

theorem inside_step {event : Event} (ready : Ready m.k) (inside : Inside m) (simple : Simple event)
    (taken : step m event = some next) : Inside next := by
  have called : ∀ {p : Nat} {goes : Bool} {cpu : Nat → Bool}, cpu = m.cpu → cpu p = true → ∀ q,
      update cpu p goes q = true → q < NPROC := by
    rintro p goes cpu rfl onCpu q now
    by_cases same : q = p
    · rw [same]
      exact inside.cpu p onCpu
    · rw [update_of_ne same] at now
      exact inside.cpu q now
  cases event with
  | call event =>
    cases event with
    | fork p =>
      obtain ⟨onCpu, _, t, goes, ran, rfl⟩ := call_eq_some taken
      obtain ⟨⟨u, made⟩, worked, same⟩ := map_eq_ok.mp ran
      cases same
      have clean := (clean_base m).2
      refine ⟨fun q beyond => ?_, called clean onCpu⟩
      rcases (fork_table worked).2 with same | ⟨np, new, found, table, _⟩
      · show (t.proc q).state = .unused
        rw [same]
        exact inside.table q beyond
      · have small := (unusedSlot_spec found).1
        show (t.proc q).state = .unused
        rw [table, update_of_ne (by omega)]
        exact inside.table q beyond
    | yield p =>
      obtain ⟨onCpu, same⟩ := ite_none_right_eq_some.mp taken
      cases same
      exact inside.leave onCpu
    | sleep p chan =>
      obtain ⟨onCpu, same⟩ := ite_none_right_eq_some.mp taken
      cases same
      exact inside.leave onCpu
    | threadCreate | threadExit | threadJoin | joinAgain | exit | wait | exec | sbrk | kill
    | dispatch | wakeup => exact simple.elim
  | setCpuShare p portion =>
    obtain ⟨onCpu, _, t, goes, ran, rfl⟩ := call_eq_some taken
    obtain ⟨⟨u, done⟩, worked, same⟩ := map_eq_ok.mp ran
    cases same
    refine ⟨fun q beyond => ?_, called rfl onCpu⟩
    show (t.proc q).state = .unused
    rcases set_cpu_share_eq worked with ⟨_, same, _⟩ | ⟨_, j, granted⟩
    · rw [same]
      exact inside.table q beyond
    · have small := inside.cpu p onCpu
      obtain ⟨_, same⟩ := granted.others q (by omega)
      rw [same]
      exact inside.table q beyond
  | tick p => exact simple.elim
  | schedule p =>
    obtain ⟨⟨_, runnable⟩, taken⟩ := ite_none_right_eq_some.mp taken
    obtain ⟨⟨t, w⟩, ran, rfl⟩ := map_eq_some_iff.mp taken
    obtain ⟨⟨u, v⟩, result, same⟩ := bind_eq_ok.mp (toOption_eq_some.mp ran)
    cases same
    obtain ⟨good, looked⟩ := choose_eq ready runnable result
    have small : w < NPROC := by
      by_contra beyond
      rw [inside.table w (by omega)] at good
      cases good
    have states : ∀ q, (u.proc q).state = (m.k.proc q).state := by
      intro q
      rcases looked with looked | looked
      · exact looked.state q
      · exact looked.state q
    refine ⟨fun q beyond => ?_, fun q onCpu => ?_⟩
    · show (update u.proc w _ q).state = .unused
      rw [update_of_ne (by omega), states]
      exact inside.table q beyond
    change update m.cpu w true q = true at onCpu
    by_cases same : q = w
    · rw [same]
      exact small
    · rw [update_of_ne same] at onCpu
      exact inside.cpu q onCpu

theorem inside_boot {mem : Vm.Mem} {code : Nat → UInt8}
    (booted : userinit (Kernel.boot mem) code = .ok k) :
    Inside (Machine.start k) := by
  refine ⟨fun q beyond => ?_, fun q onCpu => (nomatch onCpu)⟩
  obtain ⟨_, _, _, _, _, _, _, table⟩ := userinit_slot booted
  have first : 0 < NPROC := by decide
  show (k.proc q).state = .unused
  rw [table, update_of_ne (by omega)]
  rfl

/-- Only process 0, which has no threads and no share, is RUNNABLE, and a share is taken. -/
structure Solo (m : Machine) : Prop where
  ready : Ready m.k
  runnable : (m.k.proc 0).state = .runnable
  alone : (m.k.proc 0).isthread = false
  mystride : (m.k.proc 0).mystride = 0
  others : ∀ q, q ≠ 0 → (m.k.proc q).state ≠ .runnable
  stride : (m.k.strides 0).stride = 5000
  entries : ∀ j, j ≠ 0 → j < NPROC → (m.k.strides j).proc ≠ some 0
  pass : 0 ≤ (m.k.strides 0).pass

/-- Entry 0 is the only one that is compared. -/
theorem Solo.low (solo : Solo m) (low : Low m.k) : (m.k.strides 0).pass ≤ 200000000 := by
  obtain ⟨j, _, candidate, small⟩ := low
  rcases candidate with zero | ⟨inside, _, runnable⟩
  · rwa [zero] at small
  cases held : (m.k.strides j).proc with
  | none =>
    rw [held] at runnable
    cases runnable
  | some q =>
    rw [held] at runnable
    by_cases zero : j = 0
    · rwa [zero] at small
    · by_cases first : q = 0
      · exact absurd (first ▸ held) (solo.entries j zero inside)
      · exact absurd (isRunnable_some.mp runnable) (solo.others q first)

/-- Process 0 has been chosen, and has run for a tick. -/
theorem Solo.after (solo : Solo m) (low : Low m.k) (looked : Looked m.k u ∨ Looked (charge m.k) u)
    (shifts : Shifts (paid (u.setProc 0 { u.proc 0 with state := .running }) 0) t)
    (result : next.k = t.setProc 0 { t.proc 0 with state := .runnable }) :
    Solo next ∧ (m.k.strides 0).pass < (next.k.strides 0).pass := by
  have small := solo.low low
  have least := solo.pass
  have ready : Ready u := by
    rcases looked with looked | looked
    · exact solo.ready.looked looked
    · exact solo.ready.charge.looked looked
  have procs : ∀ q, u.proc q = { m.k.proc q with curthread := (u.proc q).curthread } := by
    intro q
    rcases looked with ⟨_, _, rfl, _⟩ | ⟨_, _, rfl, _⟩
    · rfl
    · rfl
  have entry : ∀ j, ∃ pass, u.strides j = { m.k.strides j with pass := pass } ∧
      (j = 0 → (m.k.strides 0).pass ≤ pass ∧ pass ≤ (m.k.strides 0).pass + 5000) := by
    intro j
    rcases looked with looked | looked
    · rw [looked.strides]
      exact ⟨(m.k.strides j).pass, rfl, fun zero => by rw [zero]; omega⟩
    rw [looked.strides, charge_strides]
    split
    · rename_i zero
      refine ⟨_, rfl, fun _ => ?_⟩
      rw [zero, solo.stride, int_eq (by omega) (by omega)]
      omega
    · rename_i other
      exact ⟨(m.k.strides j).pass, rfl, fun zero => absurd zero other⟩
  have payer : ((u.setProc 0 { u.proc 0 with state := .running }).proc 0).mystride = 0 := by
    rw [setProc_same (·.mystride) (by rfl), procs]
    exact solo.mystride
  have strides : ∀ j, next.k.strides j =
      if j = 0 then { u.strides j with pass := int ((u.strides j).pass + (u.strides j).stride) }
      else u.strides j := by
    intro j
    have same : next.k.strides = t.strides := result ▸ rfl
    rw [same, shifts.strides, paid_strides, payer]
    rfl
  have kept : ∀ q, (next.k.proc q).isthread = (m.k.proc q).isthread ∧
      (next.k.proc q).curthread = (u.proc q).curthread ∧
      (q ≠ 0 → (next.k.proc q).state = (m.k.proc q).state) := by
    intro q
    obtain ⟨_, curthread, _, state, isthread⟩ := shifts.seat q
    refine ⟨?_, ?_, fun other => ?_⟩
    · rw [result, setProc_same (·.isthread) (by rfl), isthread]
      show ((u.setProc 0 _).proc q).isthread = _
      rw [setProc_same (·.isthread) (by rfl), procs]
    · rw [result, setProc_same (·.curthread) (by rfl), curthread]
      exact setProc_same (·.curthread) (by rfl) q
    · rw [result, setProc_of_ne other, state]
      show (update u.proc 0 _ q).state = _
      rw [update_of_ne other, procs]
  obtain ⟨pass, first, grown⟩ := entry 0
  have after : next.k.strides 0 = { m.k.strides 0 with pass := pass + 5000 } := by
    have bounds := grown rfl
    rw [strides, if_pos rfl, first]
    dsimp only
    rw [solo.stride, int_eq (by omega) (by omega)]
  have bounds := grown rfl
  refine ⟨⟨⟨fun q => ?_, ?_, fun j active => ?_⟩, ?_, ?_, ?_, fun q other => ?_, ?_,
      fun j other inside => ?_, ?_⟩,
    ?_⟩
  · rw [(kept q).2.1]
    exact ready.curthread q
  · rw [after]
    exact solo.ready.first
  · by_cases zero : j = 0
    · rw [zero, after]
      exact solo.ready.first
    · rw [strides, if_neg zero] at active ⊢
      exact ready.entries j active
  · rw [result, setProc_self]
  · rw [(kept 0).1]
    exact solo.alone
  · rw [result, setProc_same (·.mystride) (by rfl)]
    rcases shifts.proc 0 with ⟨_, same⟩ | ⟨_, _, _, _, same⟩
    · rw [same]
      exact payer
    · rw [same]
  · rw [(kept q).2.2 other]
    exact solo.others q other
  · rw [after]
    exact solo.stride
  · obtain ⟨_, same, _⟩ := entry j
    rw [strides, if_neg other, same]
    exact solo.entries j other inside
  · rw [after]
    show 0 ≤ pass + 5000
    omega
  · rw [after]
    show (m.k.strides 0).pass < pass + 5000
    omega

/-- Process 0 is chosen, and runs for a tick. -/
theorem Solo.round {w : Nat} (solo : Solo m) (result : choose m.k 0 = .ok (u, w)) :
    ∃ events next, Run.exec step m events = some next ∧ Solo next ∧
      (m.k.strides 0).pass < (next.k.strides 0).pass := by
  obtain ⟨good, looked⟩ := choose_eq solo.ready solo.runnable result
  have first : w = 0 := by
    by_contra other
    exact solo.others w other good
  subst first
  obtain ⟨m₁, kernel, onCpu, chosen⟩ : ∃ m₁ : Machine,
      m₁.k = u.setProc 0 { u.proc 0 with state := .running } ∧ m₁.cpu 0 = true ∧
      step m (.schedule 0) = some m₁ := by
    refine ⟨⟨_, update m.cpu 0 true, m.joining⟩, rfl, by simp, ?_⟩
    have scheduled : scheduler m.k 0 = .ok (u.setProc 0 { u.proc 0 with state := .running }, 0) :=
      bind_eq_ok.mpr ⟨_, result, rfl⟩
    rw [step, if_pos ⟨by decide, solo.runnable⟩, scheduled]
    rfl
  have running : (m₁.k.proc 0).state = .running := by
    rw [kernel, setProc_self]
  have alone : (m₁.k.proc 0).isthread = false := by
    rw [kernel, setProc_self]
    rcases looked with ⟨_, _, rfl, _⟩ | ⟨_, _, rfl, _⟩
    · exact solo.alone
    · exact solo.alone
  obtain ⟨t, yields, ticked, shifts⟩ := tick_ends alone
  have second : step m₁ (.tick 0) = some (tick m₁ 0 t yields) := by
    rw [step, if_pos ⟨onCpu, running⟩, ticked]
    rfl
  have low := choose_low solo.ready result
  rw [kernel] at shifts
  cases yields with
  | true =>
    refine ⟨[.schedule 0, .tick 0], tick m₁ 0 t true, ?_, solo.after low looked shifts rfl⟩
    rw [Run.exec_cons_of_step _ chosen, Run.exec_cons_of_step _ second, Run.exec_nil]
  | false =>
    have third : step (tick m₁ 0 t false) (.call (.yield 0)) =
        some ((tick m₁ 0 t false).leave 0 { t.proc 0 with state := .runnable }) := by
      show (if m₁.cpu 0 then _ else _) = _
      rw [if_pos onCpu]
      rfl
    refine ⟨[.schedule 0, .tick 0, .call (.yield 0)],
      (tick m₁ 0 t false).leave 0 { t.proc 0 with state := .runnable }, ?_,
      solo.after low looked shifts rfl⟩
    rw [Run.exec_cons_of_step _ chosen, Run.exec_cons_of_step _ second,
      Run.exec_cons_of_step _ third, Run.exec_nil]

/-- The pass of entry 0 grows until it is beyond the limit. -/
theorem Solo.climbs (solo : Solo m) : ∃ events last, Run.exec step m events = some last ∧
    Solo last ∧ ¬ (Low last.k ∧ Low (charge last.k)) ∧
    scheduler last.k 0 = .error .undefined := by
  generalize measured : (200000001 - (m.k.strides 0).pass).toNat = n
  induction n using Nat.strong_induction_on generalizing m with
  | _ n ih =>
    by_cases goes : ∃ u w, choose m.k 0 = .ok (u, w)
    · obtain ⟨u, w, result⟩ := goes
      have small := solo.low (choose_low solo.ready result)
      obtain ⟨events, next, run, again, more⟩ := solo.round result
      obtain ⟨rest, last, run', final⟩ := ih _ (by omega) again rfl
      exact ⟨events ++ rest, last, Run.exec_append_of _ run run', final⟩
    cases choose_cases solo.ready 0 with
    | found u w _ result => exact absurd ⟨u, w, result⟩ goes
    | again u chosen _ result => exact absurd ⟨u, _, result⟩ goes
    | rebases high result =>
      refine ⟨[], m, rfl, solo, high, ?_⟩
      rw [scheduler, result]
      rfl

theorem solo_small : ∃ k m, userinit (Kernel.boot smallMem) (fun _ => 0) = .ok k ∧
    Run.exec step (Machine.start k) shareTaken = some m ∧ Solo m := by
  obtain ⟨k, m, booted, ends, others, entries, runnable, alone, mystride, stride, pass⟩ :=
    run_small step Machine.start shareTaken
      (fun _ m => (∀ q < NPROC, q ≠ 0 → (m.k.proc q).state ≠ .runnable) ∧
      (∀ j < NPROC, j ≠ 0 → (m.k.strides j).proc ≠ some 0) ∧ (m.k.proc 0).state = .runnable ∧
      (m.k.proc 0).isthread = false ∧ (m.k.proc 0).mystride = 0 ∧ (m.k.strides 0).stride = 5000 ∧
      (m.k.strides 0).pass = 0) (by decide +kernel)
  have inside : Inside m := by
    have simple : Run.Steps step (fun _ event => Simple event) (Machine.start k) shareTaken := by
      simp only [shareTaken, Run.Steps, Simple, implies_true, and_self]
    have first := run_ready booted (Run.exec_nil step _)
    refine (Run.exec_invariant (fun m => (Ready m.k ∧ Linked m.k) ∧ Inside m) ?_
      ⟨first, inside_boot booted⟩ simple ends).2
    rintro m event next ⟨⟨ready, linked⟩, inside⟩ simple taken
    have turn := step_turn linked taken
    exact ⟨⟨ready_turn ready turn, linked_turn ready linked turn⟩,
      inside_step ready inside simple taken⟩
  refine ⟨k, m, booted, ends, (run_ready booted ends).1, runnable, alone, mystride, ?_, stride,
    fun j other small => entries j small other, by omega⟩
  intro q other state
  by_cases small : q < NPROC
  · exact others q small other state
  · rw [inside.table q (by omega)] at state
    cases state

/-- In every state of every run: as long as a pass that is compared stays within the limit, the
process that `scheduler` switches to is RUNNABLE, it becomes RUNNING and no other state changes; and
`pickthread` ends. -/
theorem dispatch_runnable (mem : Vm.Mem) (code : Nat → UInt8) (k : Kernel)
    (booted : userinit (Kernel.boot mem) code = .ok k) (events : List Event) (m : Machine)
    (run : Run.exec step (Machine.start k) events = some m) :
    (∀ master, ∃ t w, pickthread m.k master = .ok (t, w)) ∧
    ∀ p, (m.k.proc p).state = .runnable → Unrebased m.k →
      ∃ t w, scheduler m.k p = .ok (t, w) ∧ (m.k.proc w).state = .runnable ∧
        (t.proc w).state = .running ∧ ∀ q, q ≠ w → (t.proc q).state = (m.k.proc q).state := by
  obtain ⟨ready, _⟩ := run_ready booted run
  refine ⟨fun master => pickthread_returns (ready.curthread master), ?_⟩
  intro p runnable low
  obtain ⟨t, w, result⟩ := choose_ends ready low p
  obtain ⟨good, looked⟩ := choose_eq ready runnable result
  refine ⟨_, w, bind_eq_ok.mpr ⟨_, result, rfl⟩, good, ?_, fun q other => ?_⟩
  · rw [setProc_self]
  · rw [setProc_of_ne other]
    rcases looked with looked | looked
    · exact looked.state q
    · exact looked.state q

theorem dispatch_runnable_small : ∃ k m, userinit (Kernel.boot smallMem) (fun _ => 0) = .ok k ∧
    Run.exec step (Machine.start k) shareTaken = some m ∧ (m.k.proc 0).state = .runnable ∧
    ∃ t w, scheduler m.k 0 = .ok (t, w) ∧ (m.k.proc w).state = .runnable := by
  obtain ⟨k, m, booted, ends, facts⟩ := run_small step Machine.start shareTaken
    (fun _ m => (m.k.proc 0).state = .runnable ∧ Unrebased m.k) (by decide +kernel)
  obtain ⟨t, w, result, good, _⟩ :=
    (dispatch_runnable smallMem _ k booted _ m ends).2 0 facts.1 facts.2
  exact ⟨k, m, booted, ends, facts.1, t, w, result, good⟩

/-- The share is taken, and init alone runs on: its entry pays until its pass is beyond the limit.
Then `scheduler`, on meeting init, writes behind `stride_arr`. -/
theorem scheduler_undefined : ∃ k events m, userinit (Kernel.boot smallMem) (fun _ => 0) = .ok k ∧
    Run.exec step (Machine.start k) events = some m ∧ (m.k.proc 0).state = .runnable ∧
    scheduler m.k 0 = .error .undefined := by
  obtain ⟨k, m, booted, run, solo⟩ := solo_small
  obtain ⟨events, last, climbed, final, _, wrong⟩ := solo.climbs
  exact ⟨k, shareTaken ++ events, last, booted, Run.exec_append_of _ run climbed,
      final.runnable, wrong⟩

end Xv6.Process.Sched
