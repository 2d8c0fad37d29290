import Xv6.Process.Seats

/- The machine with the scheduler of the source: the calls of proc.c, `set_cpu_share`, timer
interrupts and the choices of `scheduler`, on any number of CPUs. -/
namespace Xv6.Process.Sched

open Function Outcome Calls Dispatch Seats Option

variable {next m : Machine} {portion : Int} {h j : Nat}

inductive Event where
  | call (event : Calls.Event)
  | setCpuShare (p : Nat) (portion : Int)
  | tick (p : Nat)
  /-- The scan of some CPU meets `p`. -/
  | schedule (p : Nat)

/-- A timer interrupt: `tick_add_MLFQ`, and `yield` if it says so. -/
def tick (m : Machine) (p : Nat) (k : Kernel) (yields : Bool) : Machine :=
  if yields then { m with k := k }.leave p { k.proc p with state := .runnable }
    else { m with k := k }

def step (m : Machine) : Event → Option Machine
  | .call (.dispatch _) => none
  | .call event => Calls.step m event
  | .setCpuShare p portion => m.call p ((set_cpu_share m.k p portion).map fun (k, _) => (k, true))
  | .tick p =>
    if m.cpu p ∧ (m.k.proc p).state = .running then
      (tick_add_MLFQ m.k p).toOption.map fun (k, yields) => tick m p k yields
    else none
  | .schedule p =>
    if p < NPROC ∧ (m.k.proc p).state = .runnable then
      (scheduler m.k p).toOption.map fun (k, chosen) =>
        { m with k := k, cpu := update m.cpu chosen true }
    else none

variable {k t u : Kernel} {p q level : Nat}

/-- What moving between the queues does to a process: its ticks start again, and it is put into a
queue if it was in one of their levels. -/
def Shift (old new : Proc) : Prop :=
  (∃ fqtick, new = { old with fqtick := fqtick }) ∨
  old.level < 3 ∧ ∃ fqtick level, level < 3 ∧
    new = { old with fqtick := fqtick, level := level, mystride := 0, isstride := false }

theorem Shift.refl (old : Proc) : Shift old old := .inl ⟨old.fqtick, rfl⟩

theorem Shift.trans {old middle new : Proc} (first : Shift old middle) (second : Shift middle new) :
    Shift old new := by
  rcases first with ⟨_, rfl⟩ | ⟨low, _, _, _, rfl⟩
  · rcases second with ⟨fqtick, rfl⟩ | ⟨low, fqtick, level, small, rfl⟩
    · exact .inl ⟨fqtick, rfl⟩
    · exact .inr ⟨low, fqtick, level, small, rfl⟩
  · rcases second with ⟨fqtick, rfl⟩ | ⟨_, fqtick, level, small, rfl⟩
    · exact .inr ⟨low, fqtick, _, ‹_›, rfl⟩
    · exact .inr ⟨low, fqtick, level, small, rfl⟩

/-- All processes at most move between the queues. -/
structure Shifts (k t : Kernel) : Prop where
  strides : t.strides = k.strides
  proc : ∀ q, Shift (k.proc q) (t.proc q)

theorem Shifts.refl (k : Kernel) : Shifts k k := ⟨rfl, fun _ => Shift.refl _⟩

theorem Shifts.trans (first : Shifts k u) (second : Shifts u t) : Shifts k t :=
  ⟨second.strides.trans first.strides, fun q => (first.proc q).trans (second.proc q)⟩

theorem shifts_update {new : Proc} (strides : t.strides = k.strides)
    (proc : t.proc = update k.proc p new) (shift : Shift (k.proc p) new) : Shifts k t := by
  refine ⟨strides, fun q => ?_⟩
  rw [proc]
  exact Update.rel shift Shift.refl q

theorem push_shifts (small : level < 3) (low : (k.proc p).level < 3) :
    Shifts k (push_MLFQ k p level).1 := by
  unfold push_MLFQ
  split
  · exact Shifts.refl k
  · exact shifts_update rfl rfl (.inr ⟨low, 0, level, small, rfl⟩)

theorem pop_ends (low : (k.proc p).level < 3) :
    ∃ t found, pop_MLFQ k p = .ok (t, found) ∧ Shifts k t ∧
      (t.proc p).level = (k.proc p).level := by
  unfold pop_MLFQ
  rw [if_pos low]
  split
  · exact ⟨k, false, rfl, Shifts.refl k, rfl⟩
  · refine ⟨_, true, rfl, shifts_update rfl rfl (.inl ⟨0, rfl⟩), ?_⟩
    rw [setProc_self]
    rfl

theorem level_change_ends (small : level < 3) (low : (k.proc p).level < 3) :
    ∃ t moved, level_change_MLFQ k p level = .ok (t, moved) ∧ Shifts k t := by
  obtain ⟨u, found, popped, shifts, same⟩ := pop_ends low
  cases found with
  | false => exact ⟨u, false, bind_eq_ok.mpr ⟨_, popped, rfl⟩, shifts⟩
  | true =>
    refine ⟨(push_MLFQ u p level).1, (push_MLFQ u p level).2, bind_eq_ok.mpr ⟨_, popped, rfl⟩, ?_⟩
    exact shifts.trans (push_shifts small (same ▸ low))

theorem boost_ends (k : Kernel) : ∃ t, boost_priority k = .ok t ∧ Shifts k t := by
  unfold boost_priority
  obtain ⟨u, loop, shifts⟩ : ∃ u, (List.range NPROC).foldlM (fun k p =>
      if (k.proc p).level = 1 ∨ (k.proc p).level = 2 then do
        let (k, _) ← level_change_MLFQ k p 0
        .ok k
      else .ok k) k = .ok u ∧ Shifts k u := by
    refine foldlM_total (fun _ v => Shifts k v) ?_ (Shifts.refl k)
    intro done p rest v _ shifts
    by_cases low : (v.proc p).level = 1 ∨ (v.proc p).level = 2
    · rw [if_pos low]
      obtain ⟨w, moved, changed, next⟩ := level_change_ends (by decide : 0 < 3)
        (by omega : (v.proc p).level < 3)
      exact ⟨w, bind_eq_ok.mpr ⟨_, changed, rfl⟩, shifts.trans next⟩
    · rw [if_neg low]
      exact ⟨v, rfl, shifts⟩
  exact ⟨{ u with tick := 0 }, bind_eq_ok.mpr ⟨u, loop, rfl⟩, shifts.strides, shifts.proc⟩

theorem quantum_ends (k : Kernel) (allot length : Nat) :
    ∃ t yields, quantum k allot length = .ok (t, yields) ∧ Shifts k t ∧
      yields = decide (allot % length = 0) := by
  unfold quantum
  by_cases due : allot % length = 0
  · rw [if_pos due]
    obtain ⟨u, boosted, shifts⟩ := boost_ends k
    by_cases late : k.tick > 200
    · rw [if_pos late]
      exact ⟨u, true, bind_eq_ok.mpr ⟨u, boosted, rfl⟩, shifts, by simp [due]⟩
    · rw [if_neg late]
      exact ⟨k, true, rfl, Shifts.refl k, by simp [due]⟩
  · rw [if_neg due]
    exact ⟨k, false, rfl, Shifts.refl k, by simp [due]⟩

theorem aged_ends {next : Nat} (allot limit length : Nat) (low : (k.proc p).level < 3)
    (small : next < 3) :
    ∃ t yields, (do
      let (k, _) ← if allot ≥ limit then level_change_MLFQ k p next else .ok (k, false)
      quantum k allot length) = .ok (t, yields) ∧ Shifts k t := by
  by_cases old : allot ≥ limit
  · rw [if_pos old]
    obtain ⟨u, moved, changed, shifts⟩ := level_change_ends small low
    obtain ⟨t, yields, result, after, _⟩ := quantum_ends u allot length
    exact ⟨t, yields, bind_eq_ok.mpr ⟨_, changed, result⟩, shifts.trans after⟩
  · rw [if_neg old]
    obtain ⟨t, yields, result, after, _⟩ := quantum_ends k allot length
    exact ⟨t, yields, bind_eq_ok.mpr ⟨_, rfl, result⟩, after⟩

theorem int_eq {n : Int} (lower : -(2 ^ 31) ≤ n) (upper : n < 2 ^ 31) : int n = n :=
  Int.bmod_eq_of_le (by omega) (by omega)

/-- The entry that pays for a tick of `p`. -/
def paid (k : Kernel) (p : Nat) : Kernel :=
  let now := k.strides (k.proc p).mystride
  k.setStride (k.proc p).mystride { now with pass := int (now.pass + now.stride) }

theorem tick_ends (alone : (k.proc p).isthread = false) :
    ∃ t yields, tick_add_MLFQ k p = .ok (t, yields) ∧ Shifts (paid k p) t := by
  have counted : ∀ u : Kernel, u.proc = k.proc →
      increasealltick u p = .ok (u.setProc p { u.proc p with fqtick := (u.proc p).fqtick + 1 }) ∧
      Shifts u (u.setProc p { u.proc p with fqtick := (u.proc p).fqtick + 1 }) := by
    intro u proc
    unfold increasealltick
    rw [if_neg (by rw [proc, alone]; decide)]
    exact ⟨rfl, shifts_update rfl rfl (.inl ⟨_, rfl⟩)⟩
  unfold tick_add_MLFQ
  show ∃ t yields, (if ((paid k p).proc p).isstride then _ else _) = _ ∧ _
  by_cases holder : ((paid k p).proc p).isstride = true
  · rw [if_pos holder]
    obtain ⟨increased, shifts⟩ := counted (paid k p) rfl
    exact ⟨_, _, bind_eq_ok.mpr ⟨_, increased, rfl⟩, shifts⟩
  rw [if_neg holder]
  obtain ⟨increased, shifts⟩ := counted { paid k p with tick := (paid k p).tick + 1 } rfl
  generalize { paid k p with tick := (paid k p).tick + 1 }.setProc p _ = u at increased shifts
  have before : Shifts (paid k p) u := ⟨shifts.strides, shifts.proc⟩
  suffices rest : ∃ t yields, _ = Except.ok (t, yields) ∧ Shifts u t by
    obtain ⟨t, yields, result, after⟩ := rest
    exact ⟨t, yields, bind_eq_ok.mpr ⟨u, increased, result⟩, before.trans after⟩
  dsimp only
  by_cases top : (u.proc p).level = 0
  · rw [if_pos top]
    exact aged_ends _ 20 5 (by omega) (by decide)
  rw [if_neg top]
  by_cases middle : (u.proc p).level = 1
  · rw [if_pos middle]
    exact aged_ends _ 40 10 (by omega) (by decide)
  rw [if_neg middle]
  by_cases bottom : (u.proc p).level = 2
  · rw [if_pos bottom]
    obtain ⟨t, yields, result, after, _⟩ := quantum_ends u (u.proc p).fqtick 20
    exact ⟨t, yields, result, after⟩
  · rw [if_neg bottom]
    exact ⟨u, true, rfl, Shifts.refl u⟩

/-- A tick that went well: the process has no threads, the entry has paid, and processes have moved
between the queues. -/
theorem tick_returned {yields : Bool} (ran : tick_add_MLFQ k p = .ok (t, yields)) :
    (k.proc p).isthread = false ∧ Shifts (paid k p) t := by
  cases threads : (k.proc p).isthread with
  | false =>
    obtain ⟨u, result, ended, shifts⟩ := tick_ends threads
    cases ended.symm.trans ran
    exact ⟨rfl, shifts⟩
  | true =>
    have stops : ∀ u v : Kernel, (u.proc p).isthread = true → increasealltick u p ≠ .ok v := by
      intro u v group increased
      rw [increasealltick, if_pos group] at increased
      cases increased
    unfold tick_add_MLFQ at ran
    dsimp only at ran
    split at ran
    · obtain ⟨v, increased, _⟩ := bind_eq_ok.mp ran
      exact absurd increased (stops _ v threads)
    · obtain ⟨v, increased, _⟩ := bind_eq_ok.mp ran
      exact absurd increased (stops _ v threads)

/-- Only ticks change. -/
def Reset (k t : Kernel) : Prop :=
  t.strides = k.strides ∧ ∀ q, ∃ fqtick, t.proc q = { k.proc q with fqtick := fqtick }

theorem Reset.refl (k : Kernel) : Reset k k := ⟨rfl, fun q => ⟨(k.proc q).fqtick, rfl⟩⟩

theorem Reset.trans (first : Reset k u) (second : Reset u t) : Reset k t := by
  refine ⟨second.1.trans first.1, fun q => ?_⟩
  obtain ⟨_, same⟩ := first.2 q
  obtain ⟨fqtick, same'⟩ := second.2 q
  exact ⟨fqtick, by rw [same', same]⟩

theorem reset_set (k : Kernel) (p fqtick : Nat) :
    Reset k (k.setProc p { k.proc p with fqtick := fqtick }) := by
  refine ⟨rfl, fun q => ?_⟩
  exact Update.rel (R := fun old new : Proc => ∃ fqtick, new = { old with fqtick := fqtick })
    ⟨fqtick, rfl⟩ (fun old => ⟨old.fqtick, rfl⟩) q

theorem clearTicks_reset {list : List (Option Nat)} (ran : clearTicks k list = .ok t) :
    Reset k t := by
  induction list generalizing k with
  | nil =>
    cases ran
    exact Reset.refl _
  | cons head rest ih =>
    cases head with
    | none => cases ran
    | some p => exact (reset_set _ p 0).trans (ih ran)

theorem setthreadtick_reset (ran : setthreadtick k p = .ok t) : Reset k t := by
  unfold setthreadtick at ran
  dsimp only at ran
  have first := reset_set k ((k.proc p).master.getD p) 0
  split at ran
  · exact first.trans (clearTicks_reset ran)
  · cases ran
    exact first

theorem pop_reset {found : Bool} (ran : pop_MLFQ k p = .ok (t, found)) :
    (k.proc p).level < 3 ∧ Reset k t := by
  unfold pop_MLFQ at ran
  dsimp only at ran
  split at ran
  · rename_i low
    split at ran
    · cases ran
      exact ⟨low, Reset.refl k⟩
    · cases ran
      exact ⟨low, reset_set (k.setQueue _ _) p 0⟩
  · cases ran

/-- The portions that are asked for, with a new one. -/
def total (k : Kernel) (portion : Int) : Int :=
  (List.range (NPROC - 1)).foldl (fun total i =>
    if (k.strides (i + 1)).stride ≠ 0 then int (total + (k.strides (i + 1)).share)
      else total) portion

def minPass (k : Kernel) : Int :=
  (List.range NPROC).foldl (fun least l =>
    if (k.strides l).stride ≠ 0 ∧ least > (k.strides l).pass then (k.strides l).pass
      else least) 220000000

/-- Entry 0 gets what is left of the CPU. -/
def left (k : Kernel) (share stride : Int) : Kernel :=
  k.setStride 0 { k.strides 0 with share := share, stride := stride }

/-- `set_cpu_share` after the share of entry 0 is set. -/
def enter (k : Kernel) (p : Nat) (portion : Int) : Except Stop (Kernel × Bool) :=
  match Scan.first (fun j => (k.strides j).stride == 0) NPROC 0 with
  | none => .error .undefined
  | some j => do
    let stride ← divide MAXTICKET portion
    let k := k.setStride j ⟨stride, minPass k, portion, some p⟩
    let k := k.setProc p { k.proc p with mystride := j, isstride := true }
    let k ← setthreadtick k p
    let (k, _) ← pop_MLFQ k p
    .ok (k.setProc p { k.proc p with level := 3 }, true)

theorem set_cpu_share_split (k : Kernel) (p : Nat) (portion : Int) :
    set_cpu_share k p portion = if total k portion > 80 then .ok (k, false)
      else divide MAXTICKET (int (100 - total k portion)) >>= fun stride =>
        enter (left k (int (100 - total k portion)) stride) p portion :=
  rfl

/-- An admission: entry `j` was free and belongs to `p` now. -/
structure Granted (k t : Kernel) (p : Nat) (portion : Int) (j : Nat) : Prop where
  fits : total k portion ≤ 80
  level : (k.proc p).level < 3
  entries : ∃ stride₀ stride, divide MAXTICKET (int (100 - total k portion)) = .ok stride₀ ∧
    divide MAXTICKET portion = .ok stride ∧
    Scan.first (fun i => ((left k (int (100 - total k portion)) stride₀).strides i).stride == 0)
      NPROC 0 = some j ∧
    t.strides = update (left k (int (100 - total k portion)) stride₀).strides j
      ⟨stride, minPass (left k (int (100 - total k portion)) stride₀), portion, some p⟩
  others : ∀ q, q ≠ p → ∃ fqtick, t.proc q = { k.proc q with fqtick := fqtick }
  own : ∃ fqtick, t.proc p = { k.proc p with
    fqtick := fqtick, mystride := j, isstride := true, level := 3 }

theorem set_cpu_share_eq {done : Bool} (ran : set_cpu_share k p portion = .ok (t, done)) :
    done = false ∧ t = k ∧ total k portion > 80 ∨ done = true ∧ ∃ j, Granted k t p portion j := by
  rw [set_cpu_share_split] at ran
  split at ran
  · rename_i high
    cases ran
    exact .inl ⟨rfl, rfl, high⟩
  rename_i fits
  obtain ⟨stride₀, first, ran⟩ := bind_eq_ok.mp ran
  unfold enter at ran
  split at ran
  · cases ran
  rename_i j found
  obtain ⟨stride, second, ran⟩ := bind_eq_ok.mp ran
  obtain ⟨v, ticked, ran⟩ := bind_eq_ok.mp ran
  obtain ⟨⟨w, popped⟩, popping, ran⟩ := bind_eq_ok.mp ran
  cases ran
  obtain ⟨low, emptied⟩ := pop_reset popping
  have reset := (setthreadtick_reset ticked).trans emptied
  refine .inr ⟨rfl, j, by omega, ?_, ⟨stride₀, stride, first, second, found, reset.1⟩, ?_, ?_⟩
  · obtain ⟨fqtick, same⟩ := (setthreadtick_reset ticked).2 p
    rw [same, setProc_self] at low
    exact low
  · intro q other
    obtain ⟨fqtick, same⟩ := reset.2 q
    refine ⟨fqtick, ?_⟩
    rw [setProc_of_ne other, same, setProc_of_ne other]
    rfl
  · obtain ⟨fqtick, same⟩ := reset.2 p
    refine ⟨fqtick, ?_⟩
    rw [setProc_self, same, setProc_self]
    rfl

/-- The share of entry `j` goes back to entry 0. -/
def giveBack (k : Kernel) (j : Nat) (stride : Int) : Kernel :=
  let k := k.setStride 0 { k.strides 0 with
    share := int ((k.strides 0).share + (k.strides j).share), stride := stride }
  k.setStride j { k.strides j with stride := 0, pass := 0, share := 0 }

theorem unschedule_eq (ran : unschedule k h = .ok t) :
    (k.proc h).isstride = true ∧ (∃ stride,
      divide MAXTICKET (int ((k.strides 0).share + (k.strides (k.proc h).mystride).share)) =
        .ok stride ∧
      t = giveBack k (k.proc h).mystride stride) ∨
    (k.proc h).isstride = false ∧ Reset k t := by
  unfold unschedule at ran
  split at ran
  · rename_i holder
    obtain ⟨stride, divided, ran⟩ := bind_eq_ok.mp ran
    cases ran
    exact .inl ⟨holder, stride, divided, rfl⟩
  · rename_i other
    obtain ⟨⟨u, found⟩, popped, ran⟩ := bind_eq_ok.mp ran
    cases ran
    exact .inr ⟨Bool.eq_false_iff.mpr other, (pop_reset popped).2⟩

/-- What a step does to the kernel. -/
inductive Turn (m : Machine) (t : Kernel) : Event → Prop where
  | call (event : Calls.Event) (effects : Effects m.k t (forks event)) : Turn m t (.call event)
  | rejected (p : Nat) (portion : Int) (high : total m.k portion > 80) (same : t = m.k) :
      Turn m t (.setCpuShare p portion)
  | granted (p : Nat) (portion : Int) (j : Nat) (onCpu : m.cpu p = true)
      (granted : Granted m.k t p portion j) : Turn m t (.setCpuShare p portion)
  | tick (p : Nat) (u : Kernel) (running : (m.k.proc p).state = .running)
      (alone : (m.k.proc p).isthread = false) (shifts : Shifts (paid m.k p) u)
        (after : Seats.Quiet u t) :
      Turn m t (.tick p)
  | schedule (p w : Nat) (u : Kernel) (inside : p < NPROC)
      (runnable : (m.k.proc p).state = .runnable)
      (result : choose m.k p = .ok (u, w))
      (after : t = u.setProc w { u.proc w with state := .running }) : Turn m t (.schedule p)

theorem step_call {event : Calls.Event} (taken : step m (.call event) = some next) :
    Calls.step m event = some next := by
  cases event with
  | dispatch p => cases taken
  | fork | threadCreate | threadExit | threadJoin | joinAgain | exit | wait | exec | sbrk | kill
  | yield | sleep | wakeup => exact taken

variable {event : Event}

theorem step_turn (linked : Linked m.k) (taken : step m event = some next) :
    Turn m next.k event := by
  cases event with
  | call event => exact .call event (call_effects linked (step_call taken))
  | setCpuShare p portion =>
    obtain ⟨onCpu, _, k, runs, ran, rfl⟩ := Calls.call_eq_some taken
    obtain ⟨⟨t, done⟩, worked, same⟩ := map_eq_ok.mp ran
    cases same
    rcases set_cpu_share_eq worked with ⟨_, same, high⟩ | ⟨_, j, granted⟩
    · exact .rejected p portion high same
    · exact .granted p portion j onCpu granted
  | tick p =>
    obtain ⟨⟨_, running⟩, taken⟩ := ite_none_right_eq_some.mp taken
    obtain ⟨⟨u, yields⟩, ran, rfl⟩ := map_eq_some_iff.mp taken
    obtain ⟨alone, shifts⟩ := tick_returned (toOption_eq_some.mp ran)
    refine .tick p u running alone shifts ?_
    cases yields with
    | false => exact Seats.Quiet.refl u
    | true => exact quiet_set rfl (fun _ _ => .inl rfl) fun _ _ listed => listed
  | schedule p =>
    obtain ⟨⟨inside, runnable⟩, taken⟩ := ite_none_right_eq_some.mp taken
    obtain ⟨⟨t, w⟩, ran, rfl⟩ := map_eq_some_iff.mp taken
    obtain ⟨⟨u, v⟩, result, same⟩ := bind_eq_ok.mp (toOption_eq_some.mp ran)
    cases same
    exact .schedule p _ _ inside runnable result rfl

theorem Shifts.seat (shifts : Shifts k t) (q : Nat) :
    (t.proc q).master = (k.proc q).master ∧ (t.proc q).curthread = (k.proc q).curthread ∧
      (t.proc q).workerthread = (k.proc q).workerthread ∧ (t.proc q).state = (k.proc q).state ∧
      (t.proc q).isthread = (k.proc q).isthread := by
  rcases shifts.proc q with ⟨_, same⟩ | ⟨_, _, _, _, same⟩ <;> rw [same] <;>
    exact ⟨rfl, rfl, rfl, rfl, rfl⟩

theorem Reset.shifts (reset : Reset k t) : Shifts k t :=
  ⟨reset.1, fun q => .inl (reset.2 q)⟩

theorem giveBack_strides (k : Kernel) (j : Nat) (stride : Int) (i : Nat) :
    (giveBack k j stride).strides i = if i = j then ⟨0, 0, 0, (k.strides i).proc⟩
      else if i = 0 then { k.strides 0 with
        share := int ((k.strides 0).share + (k.strides j).share), stride := stride }
      else k.strides i := by
  show update (update k.strides 0 _) j _ i = _
  by_cases here : i = j
  · rw [here, update_self, if_pos rfl]
    show Stride.mk 0 0 0 (update k.strides 0 _ j).proc = _
    by_cases zero : j = 0
    · rw [zero, update_self]
    · rw [update_of_ne zero]
  · rw [update_of_ne here, if_neg here]
    by_cases zero : i = 0
    · rw [zero, update_self, if_pos rfl]
    · rw [update_of_ne zero, if_neg zero]

theorem exit_proc (ran : unschedule k h = .ok u) (q : Nat) :
    ∃ fqtick, u.proc q = { k.proc q with fqtick := fqtick } := by
  rcases unschedule_eq ran with ⟨_, stride, _, rfl⟩ | ⟨_, reset⟩
  · exact ⟨(k.proc q).fqtick, rfl⟩
  · exact reset.2 q

theorem linked_same (linked : Linked k) (same : ∀ q, (t.proc q).master = (k.proc q).master ∧
    (t.proc q).workerthread = (k.proc q).workerthread) : Linked t := by
  intro q i w listed
  rw [(same q).2] at listed
  rw [(same w).1]
  exact linked q i w listed

theorem linked_effects {forks : Bool} (linked : Linked k) (effects : Effects k t forks) :
    Linked t := by
  cases effects with
  | quiet _ given => exact linked.quiet given
  | fork u v np before seated after =>
    refine Linked.quiet (linked_same (linked.quiet before) fun q => ?_) after
    by_cases same : q = np
    · rw [same]
      exact ⟨seated.master, seated.lists⟩
    · rw [seated.others q same]
      exact ⟨rfl, rfl⟩
  | thread _ u v np master before recruited after =>
    have linked := linked.quiet before
    refine Linked.quiet ?_ after
    intro q i w listed
    by_cases same : w = np
    · rw [same]
      exact recruited.link
    · rw [seat_master (recruited.seat w same)]
      exact linked q i w ((recruited.lists q i w listed).resolve_right same)
  | exit _ u v h before ran after =>
    rw [after]
    refine linked_same (linked.quiet before) fun q => ?_
    obtain ⟨_, same⟩ := exit_proc ran q
    rw [setProc_same (·.master) (by rfl), setProc_same (·.workerthread) (by rfl), same]
    exact ⟨rfl, rfl⟩

theorem ready_same (ready : Ready k) (curthread : ∀ q, (t.proc q).curthread = (k.proc q).curthread)
    (strides : t.strides = k.strides) : Ready t := by
  refine ⟨fun q => ?_, ?_, ?_⟩
  · rw [curthread]
    exact ready.curthread q
  · rw [strides]
    exact ready.first
  · rw [strides]
    exact ready.entries

theorem ready_effects {forks : Bool} (ready : Ready k) (effects : Effects k t forks) : Ready t := by
  have quiet : ∀ {a b : Kernel}, Ready a → Seats.Quiet a b → Ready b := fun ready given =>
    ready_same ready (fun q => seat_curthread (given.seat q)) given.strides
  cases effects with
  | quiet _ given => exact quiet ready given
  | fork u v np before seated after =>
    refine quiet (ready_same (quiet ready before) (fun q => ?_) seated.strides) after
    by_cases same : q = np
    · rw [same, seated.curthread]
    · rw [seated.others q same]
  | thread _ u v np master before recruited after =>
    refine quiet (ready_same (quiet ready before) (fun q => ?_) recruited.strides) after
    by_cases same : q = np
    · rw [same, recruited.curthread]
    · rw [seat_curthread (recruited.seat q same)]
  | exit _ u v h before ran after =>
    have ready := quiet ready before
    have curthread : ∀ q, (t.proc q).curthread ≤ NTHRE := by
      intro q
      obtain ⟨_, same⟩ := exit_proc ran q
      rw [after, setProc_same (·.curthread) (by rfl), same]
      exact ready.curthread q
    have strides : t.strides = v.strides := after ▸ rfl
    rcases unschedule_eq ran with ⟨_, stride, _, rfl⟩ | ⟨_, reset⟩
    · have entry : ∀ j, (t.strides j).proc = (u.strides j).proc := by
        intro j
        rw [strides, giveBack_strides]
        split
        · rfl
        · split
          · rename_i zero
            rw [zero]
          · rfl
      refine ⟨curthread, by rw [entry]; exact ready.first, fun j active => ?_⟩
      rw [entry]
      rw [strides, giveBack_strides] at active
      split at active
      · exact absurd rfl active
      · split at active
        · rename_i zero
          rw [zero]
          exact ready.first
        · exact ready.entries j active
    · rw [reset.1] at strides
      refine ⟨curthread, ?_, ?_⟩
      · rw [strides]
        exact ready.first
      · rw [strides]
        exact ready.entries

/-- What a grant leaves of the other entries, and what its own is. -/
theorem Granted.strides (granted : Granted k t p portion j) :
    j < NPROC ∧ ∃ stride₀ stride, divide MAXTICKET (int (100 - total k portion)) = .ok stride₀ ∧
      divide MAXTICKET portion = .ok stride ∧ (j = 0 → stride₀ = 0) ∧
        (j ≠ 0 → (k.strides j).stride = 0) ∧
      ∀ i, t.strides i =
        if i = j then ⟨stride, minPass (left k (int (100 - total k portion)) stride₀),
          portion, some p⟩
        else if i = 0 then { k.strides 0 with
          share := int (100 - total k portion), stride := stride₀ }
        else k.strides i := by
  obtain ⟨stride₀, stride, first, second, found, strides⟩ := granted.entries
  obtain ⟨_, inside, free, _⟩ := Scan.first_eq_some found
  rw [beq_iff_eq] at free
  refine ⟨by omega, stride₀, stride, first, second, ?_, ?_, ?_⟩
  · intro zero
    rw [zero] at free
    change (update k.strides 0 _ 0).stride = 0 at free
    rwa [update_self] at free
  · intro other
    change (update k.strides 0 _ j).stride = 0 at free
    rwa [update_of_ne other] at free
  intro i
  rw [strides]
  by_cases here : i = j
  · rw [here, update_self, if_pos rfl]
  · rw [update_of_ne here, if_neg here]
    show update k.strides 0 _ i = _
    by_cases zero : i = 0
    · rw [zero, update_self, if_pos rfl]
    · rw [update_of_ne zero, if_neg zero]

theorem Granted.curthread (granted : Granted k t p portion j) (q : Nat) :
    (t.proc q).curthread = (k.proc q).curthread ∧ (t.proc q).master = (k.proc q).master ∧
      (t.proc q).workerthread = (k.proc q).workerthread := by
  by_cases same : q = p
  · obtain ⟨_, own⟩ := granted.own
    rw [same, own]
    exact ⟨rfl, rfl, rfl⟩
  · obtain ⟨_, other⟩ := granted.others q same
    rw [other]
    exact ⟨rfl, rfl, rfl⟩

theorem paid_strides (k : Kernel) (p i : Nat) : (paid k p).strides i =
    if i = (k.proc p).mystride then { k.strides i with
      pass := int ((k.strides i).pass + (k.strides i).stride) }
    else k.strides i := by
  show update k.strides (k.proc p).mystride _ i = _
  by_cases here : i = (k.proc p).mystride
  · rw [here, update_self, if_pos rfl]
  · rw [update_of_ne here, if_neg here]

theorem charge_strides (k : Kernel) (i : Nat) : (charge k).strides i =
    if i = 0 then { k.strides i with pass := int ((k.strides i).pass + (k.strides i).stride) }
    else k.strides i := by
  show update k.strides 0 _ i = _
  by_cases zero : i = 0
  · rw [zero, update_self, if_pos rfl]
  · rw [update_of_ne zero, if_neg zero]

/-- Every step keeps what the choice relies on. -/
theorem ready_turn (ready : Ready m.k) (turn : Turn m t event) : Ready t := by
  cases turn with
  | call event effects => exact ready_effects ready effects
  | rejected p portion high same =>
    rw [same]
    exact ready
  | granted p portion j onCpu granted =>
    obtain ⟨_, stride₀, stride, _, _, _, _, strides⟩ := granted.strides
    refine ⟨fun q => ?_, ?_, fun i active => ?_⟩
    · rw [(granted.curthread q).1]
      exact ready.curthread q
    · rw [strides]
      split
      · exact some_ne_none p
      · exact ready.first
    rw [strides] at active ⊢
    split
    · exact some_ne_none p
    rename_i other
    rw [if_neg other] at active
    split
    · exact ready.first
    · rename_i zero
      rw [if_neg zero] at active
      exact ready.entries i active
  | tick p u running alone shifts after =>
    have entry : ∀ j, ((paid m.k p).strides j).proc = (m.k.strides j).proc ∧
        ((paid m.k p).strides j).stride = (m.k.strides j).stride := by
      intro j
      rw [paid_strides]
      split
      · exact ⟨rfl, rfl⟩
      · exact ⟨rfl, rfl⟩
    have strides : t.strides = (paid m.k p).strides := after.strides.trans shifts.strides
    refine ⟨fun q => ?_, ?_, fun j active => ?_⟩
    · rw [seat_curthread (after.seat q), (shifts.seat q).2.1]
      exact ready.curthread q
    · rw [strides, (entry 0).1]
      exact ready.first
    · rw [strides, (entry j).2] at active
      rw [strides, (entry j).1]
      exact ready.entries j active
  | schedule p w u inside runnable result after =>
    have ready : Ready u := by
      rcases (choose_eq ready runnable result).2 with looked | looked
      · exact ready.looked looked
      · exact ready.charge.looked looked
    rw [after]
    exact ready_same ready (fun q => setProc_same (·.curthread) (by rfl) q) rfl

theorem linked_turn (ready : Ready m.k) (linked : Linked m.k) (turn : Turn m t event) :
    Linked t := by
  cases turn with
  | call event effects => exact linked_effects linked effects
  | rejected p portion high same =>
    rw [same]
    exact linked
  | granted p portion j onCpu granted => exact linked_same linked fun q => (granted.curthread q).2
  | tick p u running alone shifts after =>
    refine Linked.quiet (linked_same (k := paid m.k p) linked fun q => ?_) after
    exact ⟨(shifts.seat q).1, (shifts.seat q).2.2.1⟩
  | schedule p w u inside runnable result after =>
    rw [after]
    refine linked_same linked fun q => ?_
    rw [setProc_same (·.master) (by rfl), setProc_same (·.workerthread) (by rfl)]
    rcases (choose_eq ready runnable result).2 with ⟨_, _, rfl, _⟩ | ⟨_, _, rfl, _⟩
    · exact ⟨rfl, rfl⟩
    · exact ⟨rfl, rfl⟩

/-- What a step does to `stride_arr`. -/
inductive StridesAfter (m : Machine) (t : Kernel) (event : Event) : Prop where
  | same (strides : t.strides = m.k.strides)
  | back (h : Nat) (stride : Int) (holder : (m.k.proc h).isstride = true)
      (divided : divide MAXTICKET
        (int ((m.k.strides 0).share + (m.k.strides (m.k.proc h).mystride).share)) = .ok stride)
      (strides : t.strides = (giveBack m.k (m.k.proc h).mystride stride).strides)
  | granted (p : Nat) (portion : Int) (j : Nat) (isCall : event = .setCpuShare p portion)
      (granted : Granted m.k t p portion j)
  | ticked (p : Nat) (isTick : event = .tick p) (strides : t.strides = (paid m.k p).strides)
  | charged (p : Nat) (isChoice : event = .schedule p)
      (strides : t.strides = (charge m.k).strides)

theorem turn_strides (ready : Ready m.k) (turn : Turn m t event) : StridesAfter m t event := by
  cases turn with
  | call event effects =>
    generalize forks event = flag at effects
    cases effects with
    | quiet _ given => exact .same given.strides
    | fork u v np before seated after =>
      exact .same (after.strides.trans (seated.strides.trans before.strides))
    | thread _ u v np master before recruited after =>
      exact .same (after.strides.trans (recruited.strides.trans before.strides))
    | exit _ u v h before ran after =>
      have final : t.strides = v.strides := after ▸ rfl
      rcases unschedule_eq ran with ⟨holder, stride, divided, rfl⟩ | ⟨_, reset⟩
      · rw [seat_mystride (before.seat h), before.strides] at divided
        rw [seat_isstride (before.seat h)] at holder
        refine .back h stride holder divided (final.trans ?_)
        unfold giveBack Kernel.setStride
        rw [before.strides, seat_mystride (before.seat h)]
      · exact .same (final.trans (reset.1.trans before.strides))
  | rejected p portion high same => exact .same (by rw [same])
  | granted p portion j onCpu granted => exact .granted p portion j rfl granted
  | tick p u running alone shifts after => exact .ticked p rfl (after.strides.trans shifts.strides)
  | schedule p w u inside runnable result after =>
    have final : t.strides = u.strides := after ▸ rfl
    rcases (choose_eq ready runnable result).2 with looked | looked
    · exact .same (final.trans looked.strides)
    · exact .charged p rfl (final.trans looked.strides)

/-- How a process gets the CPU: whether it holds a share, the entry that pays, and the level. -/
def rank (p : Proc) : Bool × Nat × Nat := (p.isstride, p.mystride, p.level)

theorem rank_of_seat {old new : Proc} (same : seat new = seat old) : rank new = rank old := by
  unfold rank
  rw [seat_isstride same, seat_mystride same, seat_level same]

/-- Where the rank of `p` after a step comes from: it is the one of a process before the step, or a
place in a queue; or `fork` found no room in the queue; or a share was granted. -/
inductive RankAfter (m : Machine) (t : Kernel) (event : Event) (p : Nat) : Prop where
  | copied (q : Nat) (same : rank (t.proc p) = rank (m.k.proc q))
  | queued (level : Nat) (low : level < 3) (same : rank (t.proc p) = (false, 0, level))
  | full (call : Calls.Event) (isCall : event = .call call) (isFork : forks call = true)
      (noRoom : ¬ Room m.k)
        (same : rank (t.proc p) = ((m.k.proc p).isstride, 0, (m.k.proc p).level))
  | granted (portion : Int) (j : Nat) (isCall : event = .setCpuShare p portion)
      (granted : Granted m.k t p portion j)

theorem seated_rank {np : Nat} (seated : Seated k t np) :
    rank (t.proc np) = (false, 0, 0) ∨
    ¬ Room k ∧ rank (t.proc np) = ((k.proc np).isstride, 0, (k.proc np).level) := by
  unfold rank
  rw [seated.mystride]
  rcases seated.own with ⟨isstride, level⟩ | ⟨noRoom, isstride, level⟩
  · rw [isstride, level]
    exact .inl rfl
  · rw [isstride, level]
    exact .inr ⟨noRoom, rfl⟩

theorem turn_rank (ready : Ready m.k) (turn : Turn m t event) (p : Nat) :
    RankAfter m t event p := by
  cases turn with
  | call event effects =>
    generalize isFork : forks event = flag at effects
    cases effects with
    | quiet _ given => exact .copied p (rank_of_seat (given.seat p))
    | fork u v np before seated after =>
      by_cases same : p = np
      · have final := rank_of_seat (after.seat p)
        rw [same] at final ⊢
        rcases seated_rank seated with queued | ⟨noRoom, stays⟩
        · exact .queued 0 (by decide) (final.trans queued)
        · refine .full event rfl isFork (fun room => noRoom ?_) (final.trans (stays.trans ?_))
          · rw [Room, before.queues]
            exact room
          · rw [seat_isstride (before.seat np), seat_level (before.seat np)]
      · refine .copied p ?_
        rw [rank_of_seat (after.seat p), seated.others p same, rank_of_seat (before.seat p)]
    | thread _ u v np master before recruited after =>
      by_cases same : p = np
      · refine .copied master ?_
        rw [rank_of_seat (after.seat p), same, ← rank_of_seat (before.seat master)]
        unfold rank
        rw [recruited.isstride, recruited.mystride, recruited.level]
      · refine .copied p ?_
        rw [rank_of_seat (after.seat p), rank_of_seat (recruited.seat p same),
          rank_of_seat (before.seat p)]
    | exit _ u v h before ran after =>
      obtain ⟨_, same⟩ := exit_proc ran p
      refine .copied p ?_
      rw [after, setProc_same rank (by rfl), same, ← rank_of_seat (before.seat p)]
      rfl
  | rejected p' portion high same =>
    rw [same]
    exact .copied p rfl
  | granted p' portion j onCpu granted =>
    by_cases same : p = p'
    · rw [same]
      exact .granted portion j rfl granted
    · obtain ⟨_, other⟩ := granted.others p same
      exact .copied p (by rw [other]; rfl)
  | tick p' u running alone shifts after =>
    have final := rank_of_seat (after.seat p)
    rcases shifts.proc p with ⟨_, same⟩ | ⟨low, _, level, small, same⟩
    · rw [same] at final
      exact .copied p final
    · rw [same] at final
      exact .queued level small final
  | schedule p' w u inside runnable result after =>
    have ended : rank (t.proc p) = rank (u.proc p) := by
      rw [after]
      exact setProc_same rank (by rfl) p
    refine .copied p (ended.trans ?_)
    rcases (choose_eq ready runnable result).2 with ⟨_, _, rfl, _⟩ | ⟨_, _, rfl, _⟩
    · rfl
    · rfl

/-- The state of the scheduler's data in every state of every run. -/
theorem run_ready {mem : Vm.Mem} {code : Nat → UInt8} {k : Kernel} {events : List Event}
    (booted : userinit (Kernel.boot mem) code = .ok k)
    (run : Run.exec step (Machine.start k) events = some m) :
    Ready m.k ∧ Linked m.k := by
  have fresh := fresh_userinit booted
  refine Run.exec_invariant (fun m => Ready m.k ∧ Linked m.k) ?_ ?_
    (Run.steps_of_forall (fun _ _ => trivial) _ _) run
  · rintro m event next ⟨ready, linked⟩ _ taken
    have turn := step_turn linked taken
    exact ⟨ready_turn ready turn, linked_turn ready linked turn⟩
  refine ⟨⟨fun q => ?_, ?_, fun j active => ?_⟩, fun q i w listed => ?_⟩
  · have zero : (k.proc q).curthread = 0 := congrArg (·.2.2.2.2) (fresh.seat q)
    show (k.proc q).curthread ≤ NTHRE
    omega
  · obtain ⟨p, first⟩ := fresh.first
    show (k.strides 0).proc ≠ none
    rw [first]
    exact some_ne_none p
  · exfalso
    apply active
    show (k.strides j).stride = 0
    by_cases zero : j = 0
    · obtain ⟨p, first⟩ := fresh.first
      rw [zero, first]
    · rw [fresh.others j zero]
  · change (k.proc q).workerthread i = some w at listed
    rw [fresh.lists] at listed
    cases listed

end Xv6.Process.Sched
