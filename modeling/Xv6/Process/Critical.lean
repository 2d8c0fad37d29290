import Xv6.Log.Sync
import Xv6.Process.Calls
import Xv6.Process.Results

/- Processes inside of transactions and with sleep locks, while other members of their thread groups
call `exit`. A file-system call is any sequence of `begin_op`, `end_op`, `acquiresleep`,
`releasesleep`, log and disk accesses and sleeps, that ends its transactions and releases its locks
before it returns. -/
namespace Xv6.Process.Critical

open Function Outcome Option List

variable {old new : Proc} {t : Kernel}

/-- The locks of the inodes in the cache and of the buffers. -/
abbrev NLOCK : Nat := NINODE + NBUF

structure Sleeplock where
  locked : Bool
  pid : Nat

/-- `log.active` are the processes between `begin_op` and `end_op`. Nothing in the source records
the slot that holds a lock, the processes on a CPU whatever their state, and those in a file-system
call. -/
structure Machine where
  k : Kernel
  log : Log.Sys
  lock : Nat → Sleeplock
  holder : Nat → Option Nat
  cpu : Nat → Bool
  infs : Nat → Bool

def logChan : Option Chan := some (.other 0)

def lockChan (l : Nat) : Option Chan := some (.other (l + 1))

inductive Event where
  | enter (p : Nat)
  | leave (p : Nat)
  | beginOp (p : Nat)
  | endOp (p : Nat)
  | log (event : Log.Event)
  | acquiresleep (p l : Nat)
  | releasesleep (p l : Nat)
  | sleep (p : Nat) (chan : Option Chan)
  | wakeup (chan : Option Chan)
  | dispatch (p : Nat)
  | yield (p : Nat)
  | kill (pid : Nat)
  | fork (p : Nat)
  | threadCreate (p arg : Nat)
  | threadExit (p retval : Nat)
  | threadJoin (p thread : Nat)
  | joinAgain (p join : Nat)
  | exit (p : Nat)
  | wait (p : Nat)

/-- `sched` in `sleep`. -/
def Machine.sleepOn (m : Machine) (p : Nat) (chan : Option Chan) : Machine :=
  { m with
    k := m.k.setProc p { m.k.proc p with chan := chan, state := .sleeping }
    cpu := update m.cpu p false }

/-- A call that is none of the file system, by a process that runs. -/
def Machine.call (m : Machine) (p : Nat) (outcome : Except Stop (Kernel × Bool)) : Option Machine :=
  if m.cpu p ∧ ¬ m.infs p then
    outcome.toOption.map fun (k, runs) => { m with k := k, cpu := update m.cpu p runs }
  else none

/-- The steps of the log that neither begin nor end an operation. -/
def inner : Log.Event → Bool
  | .beginOp _ | .endOp _ | .crash => false
  | _ => true

def step (g : Log.Layout) (m : Machine) : Event → Option Machine
  | .enter p =>
    if m.cpu p ∧ ¬ m.infs p then some { m with infs := update m.infs p true } else none
  | .leave p =>
    if m.cpu p ∧ m.infs p ∧ p ∉ m.log.active ∧ ∀ l < NLOCK, m.holder l ≠ some p then
      some { m with infs := update m.infs p false }
    else none
  | .beginOp p =>
    if m.cpu p ∧ m.infs p ∧ p ∉ m.log.active then
      match Log.beginOp m.log p with
      | some log => some { m with log := log }
      | none => some (m.sleepOn p logChan)
    else none
  | .endOp p =>
    if m.cpu p ∧ m.infs p then (Log.endOp g m.log p).map fun log => { m with log := log } else none
  | .log event =>
    if inner event then (Log.step g m.log event).map fun log => { m with log := log } else none
  | .acquiresleep p l =>
    if m.cpu p ∧ m.infs p ∧ l < NLOCK then
      if (m.lock l).locked then some (m.sleepOn p (lockChan l))
      else some { m with
        lock := update m.lock l ⟨true, (m.k.proc p).pid⟩
        holder := update m.holder l (some p) }
    else none
  | .releasesleep p l =>
    if m.cpu p ∧ m.holder l = some p then
      some { m with
        k := wakeup1 m.k (lockChan l)
        lock := update m.lock l ⟨false, 0⟩
        holder := update m.holder l none }
    else none
  | .sleep p chan => if m.cpu p then some (m.sleepOn p chan) else none
  | .wakeup chan => some { m with k := wakeup1 m.k chan }
  | .dispatch p =>
    if p < NPROC ∧ (m.k.proc p).state = .runnable ∧ m.cpu p = false then
      some { m with
        k := m.k.setProc p { m.k.proc p with state := .running }
        cpu := update m.cpu p true }
    else none
  | .yield p =>
    if m.cpu p then
      some { m with
        k := m.k.setProc p { m.k.proc p with state := .runnable }
        cpu := update m.cpu p false }
    else none
  | .kill pid => some { m with k := (kill m.k pid).1 }
  | .fork p => m.call p ((fork m.k p).map fun (k, _) => (k, true))
  | .threadCreate p arg => m.call p ((thread_create m.k p arg).map fun (k, _) => (k, true))
  | .threadExit p retval => m.call p ((thread_exit m.k p retval).map fun k => (k, false))
  | .threadJoin p thread =>
    m.call p ((thread_join m.k p thread).map fun (k, progress) => (k, Calls.runs progress))
  | .joinAgain p join =>
    m.call p ((joinLoop m.k p join).map fun (k, progress) => (k, Calls.runs progress))
  | .exit p => m.call p ((exit m.k p).map fun k => (k, false))
  | .wait p => m.call p ((wait m.k p).map fun (k, progress) => (k, Calls.runs progress))

/-- The process is on no CPU and in no file-system call. -/
def Machine.Aside (m : Machine) (q : Nat) : Prop := m.cpu q = false ∧ m.infs q = false
deriving Decidable

/-- `exit` is called only when the other members of the group are aside, and so is `wait` for the
threads that the dead child lists. -/
def Careful (m : Machine) : Event → Prop
  | .exit p => ∀ q ∈ Calls.members m.k p, q ≠ p → m.Aside q
  | .threadExit p _ => (m.k.proc p).master = none → ∀ q ∈ Calls.members m.k p, q ≠ p → m.Aside q
  | .wait p => ∀ c ∈ m.k.deadChild p, ∀ q ∈ m.k.workers c, m.Aside q
  | _ => True

/-- Neither a zombie nor unused. -/
def Alive (p : Proc) : Prop := p.state ≠ .zombie ∧ p.state ≠ .unused
deriving Decidable

/-- The invariant of runs. -/
structure Inv (m : Machine) : Prop where
  counted : m.log.outstanding = m.log.active.length
  nodup : m.log.active.Nodup
  active : ∀ p ∈ m.log.active, m.infs p = true
  held : ∀ l, (m.lock l).locked = true → ∃ p, m.holder l = some p ∧
    (m.lock l).pid = (m.k.proc p).pid
  holder : ∀ l p, m.holder l = some p → l < NLOCK ∧ m.infs p = true
  running : ∀ p, m.cpu p = true → p < NPROC ∧ (m.k.proc p).state = .running
  inside : ∀ p, m.infs p = true → p < NPROC ∧ Alive (m.k.proc p)

variable {g : Log.Layout} {m next : Machine} {k : Kernel} {p q : Nat}

theorem alive_of_steady (steady : Steady old new) (alive : Alive old) : Alive new := by
  unfold Alive
  rcases steady.2 with same | ⟨_, awake⟩
  · rw [same]
    exact alive
  · rw [awake]
    exact ⟨ProcState.noConfusion, ProcState.noConfusion⟩

/-- A process that is on a CPU or in a file-system call. -/
def Machine.Busy (m : Machine) (q : Nat) : Prop := m.cpu q = true ∨ m.infs q = true

theorem Inv.alive (inv : Inv m) (busy : m.Busy q) : Alive (m.k.proc q) := by
  cases busy with
  | inl running =>
    unfold Alive
    rw [(inv.running q running).2]
    exact ⟨ProcState.noConfusion, ProcState.noConfusion⟩
  | inr inside => exact (inv.inside q inside).2

theorem not_busy_of_aside (aside : m.Aside q) : ¬ m.Busy q := by
  intro busy
  cases busy with
  | inl running =>
    rw [aside.1] at running
    cases running
  | inr inside =>
    rw [aside.2] at inside
    cases inside

section

variable (inv : Inv m)
include inv

theorem Inv.table {cpu : Nat → Bool}
    (inside : ∀ q, m.infs q = true → Alive (k.proc q) ∧ (k.proc q).pid = (m.k.proc q).pid)
    (running : ∀ q, cpu q = true → q < NPROC ∧ (k.proc q).state = .running) :
    Inv { m with k := k, cpu := cpu } := by
  constructor
  · exact inv.counted
  · exact inv.nodup
  · exact inv.active
  · intro l locked
    obtain ⟨p, found, pid⟩ := inv.held l locked
    exact ⟨p, found, pid.trans (inside p (inv.holder l p found).2).2.symm⟩
  · exact inv.holder
  · exact running
  · intro q inside'
    exact ⟨(inv.inside q inside').1, (inside q inside').1⟩

theorem Inv.steady {runs : Bool} (caller : runs = true → m.cpu p = true)
    (off : runs = false → m.infs p = true → Alive (k.proc p) ∧ (k.proc p).pid = (m.k.proc p).pid)
    (steady : ∀ q, m.Busy q → (q = p → runs = true) → Steady (m.k.proc q) (k.proc q)) :
    Inv { m with k := k, cpu := update m.cpu p runs } := by
  apply inv.table
  · intro q inside
    by_cases stays : q = p → runs = true
    · have steady := steady q (.inr inside) stays
      exact ⟨alive_of_steady steady (inv.inside q inside).2, steady.1⟩
    · rw [Classical.not_imp, Bool.not_eq_true] at stays
      rw [stays.1] at inside ⊢
      exact off stays.2 inside
  · intro q running
    have before : m.cpu q = true ∧ (q = p → runs = true) := by
      by_cases equal : q = p
      · rw [equal, update_self] at running
        rw [equal]
        exact ⟨caller running, fun _ => running⟩
      · rw [update_of_ne equal] at running
        exact ⟨running, fun same => absurd same equal⟩
    have was := inv.running q before.1
    exact ⟨was.1, ((steady q (.inl before.1) before.2).2.running was.2).trans was.2⟩

theorem Inv.quiet (steady : ∀ q, m.Busy q → Steady (m.k.proc q) (k.proc q)) :
    Inv { m with k := k } := by
  apply inv.table
  · intro q inside
    have steady := steady q (.inr inside)
    exact ⟨alive_of_steady steady (inv.inside q inside).2, steady.1⟩
  intro q running
  have was := inv.running q running
  exact ⟨was.1, ((steady q (.inl running)).2.running was.2).trans was.2⟩

theorem Inv.call {outcome : Except Stop (Kernel × Bool)}
    (steady : ∀ k runs, outcome = .ok (k, runs) → ∀ q, m.Busy q → (q = p → runs = true) →
      Steady (m.k.proc q) (k.proc q)) (taken : m.call p outcome = some next) : Inv next := by
  obtain ⟨given, taken⟩ := ite_none_right_eq_some.mp taken
  obtain ⟨⟨k, runs⟩, ran, same⟩ := map_eq_some_iff.mp taken
  rw [toOption_eq_some] at ran
  rw [← same]
  apply inv.steady
  · exact fun _ => given.1
  · intro _ inside
    exact absurd inside given.2
  · exact steady k runs ran

theorem Inv.switch (alive : Alive new) (pid : new.pid = (m.k.proc p).pid) :
    Inv { m with k := m.k.setProc p new, cpu := update m.cpu p false } := by
  apply inv.steady
  · intro impossible
    cases impossible
  · intro _ _
    rw [setProc_self]
    exact ⟨alive, pid⟩
  intro q _ other
  have different : q ≠ p := by
    intro equal
    cases other equal
  rw [setProc_of_ne different]
  exact Steady.refl _

theorem Inv.sleepOn (p : Nat) (chan : Option Chan) : Inv (m.sleepOn p chan) := by
  apply inv.switch
  · exact ⟨ProcState.noConfusion, ProcState.noConfusion⟩
  · rfl

end

section Log

theorem inner_ops {s t : Log.Sys} {event : Log.Event} (within : inner event = true)
    (taken : Log.step g s event = some t) : t.outstanding = s.outstanding ∧
    t.active = s.active := by
  cases event with
  | beginOp p => cases within
  | endOp p => cases within
  | crash => cases within
  | logCheck p b data =>
    unfold Log.step Log.logCheck at taken
    dsimp only at taken
    split at taken
    · cases taken
    · split at taken
      · cases taken
      · obtain ⟨_, taken⟩ := ite_none_right_eq_some.mp taken
        cases taken
        exact ⟨rfl, rfl⟩
  | logAppend p =>
    unfold Log.step Log.logAppend at taken
    dsimp only at taken
    split at taken
    · cases taken
    · cases taken
      exact ⟨rfl, rfl⟩
  | sysSync =>
    unfold Log.step Log.sysSync at taken
    dsimp only at taken
    split at taken
    · cases taken
    · cases taken
      exact ⟨rfl, rfl⟩
  | step agent =>
    obtain ⟨pc, _, same⟩ := map_eq_some_iff.mp taken
    rw [← same]
    exact Log.advance_ops g s agent pc
  | bread b =>
    cases taken
    simp
  | recycle b =>
    unfold Log.step Log.recycle at taken
    dsimp only at taken
    split at taken
    · cases taken
      exact ⟨rfl, rfl⟩
    · cases taken

theorem Inv.log {log : Log.Sys} (inv : Inv m) (counted : log.outstanding = log.active.length)
    (nodup : log.active.Nodup) (active : ∀ p ∈ log.active, m.infs p = true) :
    Inv { m with log := log } :=
  ⟨counted, nodup, active, inv.held, inv.holder, inv.running, inv.inside⟩

theorem inv_beginOp (inv : Inv m) (taken : step g m (.beginOp p) = some next) : Inv next := by
  obtain ⟨given, taken⟩ := ite_none_right_eq_some.mp taken
  split at taken
  · rename_i log begun
    cases taken
    unfold Log.beginOp at begun
    split at begun
    · cases begun
    split at begun
    · cases begun
    split at begun
    · cases begun
    cases begun
    apply inv.log
    · rw [length_cons, inv.counted]
    · exact nodup_cons.mpr ⟨given.2.2, inv.nodup⟩
    · intro q member
      rcases mem_cons.mp member with same | before
      · rw [same]
        exact given.2.1
      · exact inv.active q before
  · cases taken
    exact inv.sleepOn p logChan

theorem inv_endOp (inv : Inv m) (taken : step g m (.endOp p) = some next) : Inv next := by
  obtain ⟨given, taken⟩ := ite_none_right_eq_some.mp taken
  obtain ⟨log, ended, same⟩ := map_eq_some_iff.mp taken
  rw [← same]
  have ops : p ∈ m.log.active ∧ log.outstanding = m.log.outstanding - 1 ∧
      log.active = m.log.active.erase p := by
    unfold Log.endOp at ended
    split at ended
    · cases ended
    rename_i inside
    rw [not_or, not_not] at inside
    refine ⟨inside.1, ?_⟩
    split at ended
    · cases ended
    dsimp only at ended
    split at ended
    · cases ended
      exact ⟨rfl, rfl⟩
    · cases ended
      exact ⟨rfl, rfl⟩
  apply inv.log
  · rw [ops.2.1, ops.2.2, length_erase_of_mem ops.1, inv.counted]
  · rw [ops.2.2]
    exact inv.nodup.erase p
  · intro q member
    rw [ops.2.2] at member
    exact inv.active q (mem_of_mem_erase member)

end Log

section Locks

theorem inv_acquiresleep {l : Nat} (inv : Inv m)
    (taken : step g m (.acquiresleep p l) = some next) : Inv next := by
  obtain ⟨given, taken⟩ := ite_none_right_eq_some.mp taken
  split at taken
  · cases taken
    exact inv.sleepOn p (lockChan l)
  cases taken
  constructor
  · exact inv.counted
  · exact inv.nodup
  · exact inv.active
  · intro a locked
    dsimp only at locked ⊢
    by_cases equal : a = l
    · subst equal
      rw [update_self, update_self]
      exact ⟨p, rfl, rfl⟩
    · rw [update_of_ne equal] at locked
      rw [update_of_ne equal, update_of_ne equal]
      exact inv.held a locked
  · intro a q found
    dsimp only at found ⊢
    by_cases equal : a = l
    · subst equal
      rw [update_self] at found
      cases found
      exact ⟨given.2.2, given.2.1⟩
    · rw [update_of_ne equal] at found
      exact inv.holder a q found
  · exact inv.running
  · exact inv.inside

theorem Inv.free (inv : Inv m) (l : Nat) :
    Inv { m with
      lock := update m.lock l ⟨false, 0⟩
      holder := update m.holder l none } := by
  constructor
  · exact inv.counted
  · exact inv.nodup
  · exact inv.active
  · intro a locked
    dsimp only at locked ⊢
    by_cases equal : a = l
    · subst equal
      rw [update_self] at locked
      cases locked
    · rw [update_of_ne equal] at locked
      rw [update_of_ne equal, update_of_ne equal]
      exact inv.held a locked
  · intro a q found
    dsimp only at found
    by_cases equal : a = l
    · subst equal
      rw [update_self] at found
      cases found
    · rw [update_of_ne equal] at found
      exact inv.holder a q found
  · exact inv.running
  · exact inv.inside

theorem wakeup1_steady (k : Kernel) (chan : Option Chan) (q : Nat) :
    Steady (k.proc q) ((wakeup1 k chan).proc q) :=
  (wakeup1_bystander 0 k chan q).steady

theorem inv_releasesleep {l : Nat} (inv : Inv m)
    (taken : step g m (.releasesleep p l) = some next) : Inv next := by
  obtain ⟨_, taken⟩ := ite_none_right_eq_some.mp taken
  cases taken
  apply (inv.free l).quiet
  intro q _
  exact wakeup1_steady m.k (lockChan l) q

end Locks

section Calls

theorem inv_enter (inv : Inv m) (taken : step g m (.enter p) = some next) : Inv next := by
  obtain ⟨given, taken⟩ := ite_none_right_eq_some.mp taken
  cases taken
  have grows : ∀ q, m.infs q = true → update m.infs p true q = true := by
    intro q inside
    rw [update_apply]
    split
    · rfl
    · exact inside
  constructor
  · exact inv.counted
  · exact inv.nodup
  · intro q member
    exact grows q (inv.active q member)
  · exact inv.held
  · intro l q found
    exact ⟨(inv.holder l q found).1, grows q (inv.holder l q found).2⟩
  · exact inv.running
  intro q inside
  dsimp only at inside
  by_cases equal : q = p
  · subst equal
    exact ⟨(inv.running q given.1).1, inv.alive (.inl given.1)⟩
  · rw [update_of_ne equal] at inside
    exact inv.inside q inside

theorem inv_leave (inv : Inv m) (taken : step g m (.leave p) = some next) : Inv next := by
  obtain ⟨given, taken⟩ := ite_none_right_eq_some.mp taken
  cases taken
  have other : ∀ q, q ≠ p → m.infs q = true → update m.infs p false q = true := by
    intro q different inside
    rw [update_of_ne different]
    exact inside
  constructor
  · exact inv.counted
  · exact inv.nodup
  · intro q member
    apply other q _ (inv.active q member)
    intro equal
    rw [equal] at member
    exact given.2.2.1 member
  · exact inv.held
  · intro l q found
    have before := inv.holder l q found
    refine ⟨before.1, other q ?_ before.2⟩
    intro equal
    rw [equal] at found
    exact given.2.2.2 l before.1 found
  · exact inv.running
  · intro q inside
    dsimp only at inside
    rw [update_apply] at inside
    split at inside
    · cases inside
    · exact inv.inside q inside

theorem touched_steady {may : Nat → Proc → Proc → Prop} (touched : Touched may k t)
    (each : ∀ old new, may q old new → Steady old new) : Steady (k.proc q) (t.proc q) :=
  touched.1.entry (R := fun i old new => i = q → Steady old new) (fun _ _ _ => Steady.refl _)
    (fun _ _ _ _ first second here => (first here).trans (second here))
    (fun _ old new allowed here => each old new (here ▸ allowed)) q rfl

/-- The loop of `thread_join` changes the state of its caller and of a zombie. -/
theorem joinLoop_steady {join : Nat} {progress : Progress}
    (ran : joinLoop k p join = .ok (t, progress)) (alive : (k.proc q).state ≠ .zombie)
    (other : q = p → progress ≠ .sleeps) : Steady (k.proc q) (t.proc q) := by
  refine touched_steady (joinLoop_touched ran) fun old new store => ?_
  cases store with
  | sleeps asleep caller => exact absurd asleep (other caller)
  | gives | strikes => exact ⟨rfl, .inl rfl⟩
  | frees zombie _ isJoin => exact absurd (isJoin ▸ zombie) alive

theorem wait_steady {progress : Progress} (ran : wait k p = .ok (t, progress))
    (alive : (k.proc q).state ≠ .zombie) (notWorker : ∀ c ∈ k.deadChild p, q ∉ k.workers c)
    (other : q = p → progress ≠ .sleeps) : Steady (k.proc q) (t.proc q) := by
  refine touched_steady (wait_touched ran) fun old new store => ?_
  cases store with
  | sleeps asleep caller => exact absurd asleep (other caller)
  | reclaims found worker => exact absurd worker (notWorker _ found)
  | strikes => exact ⟨rfl, .inl rfl⟩
  | frees found => exact absurd (deadChild_spec found).2.2.2 alive

theorem thread_create_steady {arg : Nat} {made : Option Nat}
    (ran : thread_create k p arg = .ok (t, made)) (used : (k.proc q).state ≠ .unused) :
    Steady (k.proc q) (t.proc q) := by
  rcases thread_create_eq ran with ⟨_, _, same⟩ | ⟨np, found, rest⟩
  · rw [same]
    exact Steady.refl _
  have different := ne_unusedSlot found used
  have claimed : (k.claim np).proc q = k.proc q := by
    rw [claim_proc, update_of_ne different]
  rcases rest with ⟨_, failed⟩ | ⟨u, allocated, rest⟩
  · rw [(allocStack_false (allocthreadRest_false failed)).1, setProc_of_ne different, claimed]
    exact Steady.refl _
  obtain ⟨_, _, frame, i, slot⟩ := allocthreadRest_slot allocated
  have kept : Steady (k.proc q) (u.proc q) := by
    rw [slot q, if_neg different, claimed]
    split
    all_goals exact ⟨rfl, .inl rfl⟩
  refine kept.trans (touched_steady (threadRest_touched rest) fun old new store => ?_)
  cases store with
  | resizes => exact ⟨rfl, .inl rfl⟩
  | starts isNew => exact absurd isNew different

/-- What `exit` leaves of the processes that are busy. -/
theorem exit_steady (careful : ∀ q ∈ Calls.members m.k p, q ≠ p → m.Aside q)
    (ran : exit m.k p = .ok k) (busy : m.Busy q) (other : q ≠ p) :
    Steady (m.k.proc q) (k.proc q) := by
  have outside : q ∉ Calls.members m.k p := fun inside =>
    not_busy_of_aside (careful q inside other) busy
  unfold Calls.members at outside
  rw [mem_cons, not_or] at outside
  exact (exit_bystander ran outside.1 outside.2).steady

theorem inv_exit (inv : Inv m) (careful : Careful m (.exit p))
    (taken : step g m (.exit p) = some next) : Inv next := by
  apply inv.call _ taken
  intro k runs mapped q busy other
  obtain ⟨t, ran, same⟩ := map_eq_ok.mp mapped
  cases same
  apply exit_steady careful ran busy
  intro equal
  cases other equal

theorem inv_threadExit {retval : Nat} (inv : Inv m) (careful : Careful m (.threadExit p retval))
    (taken : step g m (.threadExit p retval) = some next) : Inv next := by
  apply inv.call _ taken
  intro k runs mapped q busy other
  obtain ⟨t, ran, same⟩ := map_eq_ok.mp mapped
  cases same
  have different : q ≠ p := by
    intro equal
    cases other equal
  obtain ⟨link, ran⟩ | ⟨master, link⟩ := thread_exit_cases ran
  · exact exit_steady (careful link) ran busy different
  exact thread_exit_steady link ran different

theorem inv_wait (inv : Inv m) (careful : Careful m (.wait p))
    (taken : step g m (.wait p) = some next) : Inv next := by
  apply inv.call _ taken
  intro k runs mapped q busy other
  obtain ⟨⟨t, progress⟩, ran, same⟩ := map_eq_ok.mp mapped
  cases same
  apply wait_steady ran (inv.alive busy).1
  · intro c found inside
    exact not_busy_of_aside (careful c found q inside) busy
  · intro equal asleep
    rw [asleep] at other
    cases other equal

theorem inv_step {event : Event} (inv : Inv m) (careful : Careful m event)
    (taken : step g m event = some next) : Inv next := by
  cases event with
  | enter p => exact inv_enter inv taken
  | leave p => exact inv_leave inv taken
  | beginOp p => exact inv_beginOp inv taken
  | endOp p => exact inv_endOp inv taken
  | log event =>
    obtain ⟨within, taken⟩ := ite_none_right_eq_some.mp taken
    obtain ⟨log, logged, same⟩ := map_eq_some_iff.mp taken
    obtain ⟨outstanding, active⟩ := inner_ops within logged
    rw [← same]
    apply inv.log
    · rw [outstanding, active]
      exact inv.counted
    · rw [active]
      exact inv.nodup
    · rw [active]
      exact inv.active
  | acquiresleep p l => exact inv_acquiresleep inv taken
  | releasesleep p l => exact inv_releasesleep inv taken
  | sleep p chan =>
    obtain ⟨_, taken⟩ := ite_none_right_eq_some.mp taken
    cases taken
    exact inv.sleepOn p chan
  | wakeup chan =>
    cases taken
    apply inv.quiet
    intro q _
    exact wakeup1_steady m.k chan q
  | dispatch p =>
    obtain ⟨given, taken⟩ := ite_none_right_eq_some.mp taken
    cases taken
    apply inv.table
    · intro q inside
      rw [setProc_proc]
      by_cases equal : q = p
      · subst equal
        rw [update_self]
        exact ⟨⟨ProcState.noConfusion, ProcState.noConfusion⟩, rfl⟩
      · rw [update_of_ne equal]
        exact ⟨(inv.inside q inside).2, rfl⟩
    · intro q running
      rw [setProc_proc]
      by_cases equal : q = p
      · subst equal
        rw [update_self]
        exact ⟨given.1, rfl⟩
      · rw [update_of_ne equal] at running ⊢
        exact inv.running q running
  | yield p =>
    obtain ⟨_, taken⟩ := ite_none_right_eq_some.mp taken
    cases taken
    apply inv.switch
    · exact ⟨ProcState.noConfusion, ProcState.noConfusion⟩
    · rfl
  | kill pid =>
    cases taken
    apply inv.quiet
    intro q _
    exact kill_steady q
  | fork p =>
    apply inv.call _ taken
    intro k runs mapped q busy _
    obtain ⟨⟨t, made⟩, ran, same⟩ := map_eq_ok.mp mapped
    cases same
    obtain ⟨_, same | ⟨np, new, found, table, _⟩⟩ := fork_table ran
    · rw [same]
      exact Steady.refl _
    · rw [table, update_of_ne (ne_unusedSlot found (inv.alive busy).2)]
      exact Steady.refl _
  | threadCreate p arg =>
    apply inv.call _ taken
    intro k runs mapped q busy _
    obtain ⟨⟨t, made⟩, ran, same⟩ := map_eq_ok.mp mapped
    cases same
    exact thread_create_steady ran (inv.alive busy).2
  | threadExit p retval => exact inv_threadExit inv careful taken
  | threadJoin p thread =>
    apply inv.call _ taken
    intro k runs mapped q busy other
    obtain ⟨⟨t, progress⟩, ran, same⟩ := map_eq_ok.mp mapped
    cases same
    obtain ⟨w, _, ⟨_, same, _⟩ | looks⟩ := thread_join_eq ran
    · rw [same]
      exact Steady.refl _
    · apply joinLoop_steady looks (inv.alive busy).1
      intro equal asleep
      rw [asleep] at other
      cases other equal
  | joinAgain p join =>
    apply inv.call _ taken
    intro k runs mapped q busy other
    obtain ⟨⟨t, progress⟩, ran, same⟩ := map_eq_ok.mp mapped
    cases same
    apply joinLoop_steady ran (inv.alive busy).1
    intro equal asleep
    rw [asleep] at other
    cases other equal
  | exit p => exact inv_exit inv careful taken
  | wait p => exact inv_wait inv careful taken

end Calls

/-- A process that `p` ends is neither in a transaction nor holds a lock. -/
def EndsIdle (m : Machine) (p : Nat) (k : Kernel) : Prop :=
  ∀ q, q ≠ p → (k.proc q).state = .zombie → (m.k.proc q).state ≠ .zombie →
    q ∉ m.log.active ∧ ∀ l, m.holder l ≠ some q

def Safe (m : Machine) : Event → Prop
  | .exit p => ∀ k, exit m.k p = .ok k → EndsIdle m p k
  | .threadExit p retval => ∀ k, thread_exit m.k p retval = .ok k → EndsIdle m p k
  | _ => True

theorem Inv.idle (inv : Inv m) (outside : m.infs q ≠ true) :
    q ∉ m.log.active ∧ ∀ l, m.holder l ≠ some q :=
  ⟨fun member => outside (inv.active q member), fun l found => outside (inv.holder l q found).2⟩

/-- Nobody runs yet. -/
def Machine.start (k : Kernel) (disk : Nat → Bytes.Block) : Machine :=
  { k := k
    log := Log.started disk
    lock := fun _ => ⟨false, 0⟩
    holder := fun _ => none
    cpu := fun _ => false
    infs := fun _ => false }

instance (m : Machine) (event : Event) : Decidable (Careful m event) := by
  rcases event <;> dsimp only [Careful] <;> infer_instance

/-- Init forks a child, which makes a thread; both run. -/
def twoThreads : List Event :=
  [.dispatch 0, .fork 0, .dispatch 1, .threadCreate 1 0, .dispatch 2]

/-- The thread does an operation with a lock and is preempted; then the child exits and is waited
for. -/
def carefulRun : List Event :=
  twoThreads ++ [.enter 2, .beginOp 2, .acquiresleep 2 0, .sleep 2 (some (.other 99)),
    .wakeup (some (.other 99)), .dispatch 2, .releasesleep 2 0, .endOp 2, .leave 2,
      .yield 2, .exit 1,
    .wait 0]

end Xv6.Process.Critical
