import Mathlib.Logic.Relation
import Xv6.Process.Calls
import Xv6.Process.Dispatch

/- What the calls of proc.c do to the data of the scheduler. Each call is a sequence of moves, and
only three kinds of moves touch that data: a slot is taken by a new process or by a new thread, and
`exit` takes a process out of the queues or gives its share back. -/
namespace Xv6.Process.Seats

open Function Outcome Calls

variable {old new : Proc} {retval arg : Nat} {done : Bool} {made : Option Nat}

/-- What the scheduler knows of a process, and its link to a group. -/
def seat (p : Proc) : Option Nat × Bool × Nat × Nat × Nat :=
  (p.master, p.isstride, p.mystride, p.level, p.curthread)

/-- A slot that is in a list of workers names a master. -/
def Linked (k : Kernel) : Prop :=
  ∀ q i w, (k.proc q).workerthread i = some w → (k.proc w).master ≠ none

/-- All seats stay as they are, and a process without a master stays alive. -/
structure Quiet (k t : Kernel) : Prop where
  strides : t.strides = k.strides
  queues : t.queues = k.queues
  seat : ∀ q, seat (t.proc q) = seat (k.proc q)
  live : ∀ q, (k.proc q).master = none → Live (k.proc q).state → Live (t.proc q).state
  lists : ∀ q i w, (t.proc q).workerthread i = some w → (k.proc q).workerthread i = some w

variable {k t u : Kernel} {p q np master : Nat}

section

variable (same : seat new = seat old)
include same

theorem seat_master : new.master = old.master :=
  congrArg Prod.fst same

theorem seat_isstride : new.isstride = old.isstride :=
  congrArg (·.2.1) same

theorem seat_mystride : new.mystride = old.mystride :=
  congrArg (·.2.2.1) same

theorem seat_level : new.level = old.level :=
  congrArg (·.2.2.2.1) same

theorem seat_curthread : new.curthread = old.curthread :=
  congrArg (·.2.2.2.2) same

end

theorem Quiet.refl (k : Kernel) : Quiet k k :=
  ⟨rfl, rfl, fun _ => rfl, fun _ _ live => live, fun _ _ _ listed => listed⟩

theorem Quiet.trans (first : Quiet k u) (second : Quiet u t) : Quiet k t where
  strides := second.strides.trans first.strides
  queues := second.queues.trans first.queues
  seat q := (second.seat q).trans (first.seat q)
  live q root live :=
    second.live q ((seat_master (first.seat q)).trans root) (first.live q root live)
  lists q i w listed := first.lists q i w (second.lists q i w listed)

theorem Quiet.of_proc (proc : t.proc = k.proc) (strides : t.strides = k.strides)
    (queues : t.queues = k.queues) : Quiet k t := by
  refine ⟨strides, queues, ?_, ?_, ?_⟩
  · intro q
    rw [proc]
  · intro q _ live
    rwa [proc]
  · intro q i w listed
    rwa [proc] at listed

/-- What a quiet call does to one process. -/
structure QuietAt (old new : Proc) : Prop where
  seat : seat new = seat old
  live : old.master = none → Live old.state → Live new.state
  lists : ∀ i w, new.workerthread i = some w → old.workerthread i = some w

theorem QuietAt.keep (same : Seats.seat new = Seats.seat old) (state : new.state = old.state)
    (lists : new.workerthread = old.workerthread) : QuietAt old new :=
  ⟨same, fun _ live => by rwa [state], fun i w listed => by rwa [lists] at listed⟩

theorem QuietAt.refl (old : Proc) : QuietAt old old := .keep rfl rfl rfl

theorem QuietAt.trans {middle : Proc} (first : QuietAt old middle) (second : QuietAt middle new) :
    QuietAt old new where
  seat := second.seat.trans first.seat
  live root live := second.live ((seat_master first.seat).trans root) (first.live root live)
  lists i w listed := first.lists i w (second.lists i w listed)

theorem Quiet.of_slots (queues : t.queues = k.queues) (strides : t.strides = k.strides)
    (slots : ∀ q, QuietAt (k.proc q) (t.proc q)) : Quiet k t :=
  ⟨strides, queues, fun q => (slots q).seat, fun q => (slots q).live, fun q => (slots q).lists⟩

theorem quiet_set (same : seat new = seat (k.proc p))
    (live : (k.proc p).master = none → Live (k.proc p).state → Live new.state)
    (lists : ∀ i w, new.workerthread i = some w → (k.proc p).workerthread i = some w) :
    Quiet k (k.setProc p new) :=
  .of_slots rfl rfl ((forall_update_iff k.proc fun q now => QuietAt (k.proc q) now).mpr
    ⟨⟨same, live, lists⟩, fun _ _ => .refl _⟩)

theorem quiet_keep (same : seat new = seat (k.proc p)) (state : new.state = (k.proc p).state)
    (lists : new.workerthread = (k.proc p).workerthread) : Quiet k (k.setProc p new) :=
  quiet_set same (fun _ live => by rwa [state]) fun i w listed => by rwa [lists] at listed

/-- A call is quiet if its stores are; all of them see the masters that the call has found. -/
theorem quiet_touched {may : Nat → Proc → Proc → Prop} (touched : Touched may k t)
    (each : ∀ q old new, may q old new → old.master = (k.proc q).master → QuietAt old new) :
    Quiet k t := by
  refine .of_slots touched.2.1 touched.2.2 fun q => ?_
  refine touched.1.entry (R := fun q old new => old.master = (k.proc q).master → QuietAt old new)
    (fun _ old _ => .refl old) (fun q a b c first second root => ?_) each q rfl
  exact (first root).trans (second ((seat_master (first root).seat).trans root))

theorem quiet_bystander (given : Bystander p old new) : QuietAt old new := by
  obtain ⟨parent, state, same, _, woken⟩ := given
  rw [same]
  exact ⟨rfl, fun _ => woken.live.1.mpr, fun _ _ listed => listed⟩

theorem Linked.quiet (linked : Linked k) (quiet : Quiet k t) : Linked t := by
  intro q i w listed
  rw [seat_master (quiet.seat w)]
  exact linked q i w (quiet.lists q i w listed)

theorem wakeup1_quiet (k : Kernel) (chan : Option Chan) : Quiet k (wakeup1 k chan) :=
  .of_slots rfl rfl fun q => quiet_bystander (wakeup1_bystander 0 k chan q)

theorem orphan_quiet (k : Kernel) (chan : Option Chan) (p : Nat) : Quiet k (orphan k chan p) :=
  .of_slots (orphan_only k chan p).scheduler.1 (orphan_only k chan p).scheduler.2 fun q =>
    quiet_bystander (orphan_bystander k chan p q)

theorem linked_worker {w : Nat} (linked : Linked k) (member : w ∈ k.workers master) :
    (k.proc w).master ≠ none := by
  obtain ⟨i, _, listed⟩ := mem_workers.mp member
  exact linked master i w listed

theorem endWorkers_quiet (linked : Linked k) (master : Nat) : Quiet k (endWorkers k master) := by
  obtain ⟨queues, strides⟩ := (endWorkers_only k master).scheduler
  refine .of_slots queues strides fun q => ?_
  rw [endWorkers_slot]
  split
  · rename_i member
    exact ⟨rfl, fun root => absurd root (linked_worker linked member), fun _ _ listed => listed⟩
  · exact .refl _

theorem wait_quiet {progress : Progress} (linked : Linked k) (ran : wait k p = .ok (t, progress)) :
    Quiet k t := by
  refine quiet_touched (wait_touched ran) fun q old new store root => ?_
  cases store with
  | sleeps => exact ⟨rfl, fun _ _ => .inr (.inr rfl), fun _ _ listed => listed⟩
  | reclaims _ worker =>
    exact ⟨rfl, fun none => absurd (root.symm.trans none) (linked_worker linked worker),
      fun _ _ listed => listed⟩
  | strikes => exact ⟨rfl, fun _ live => live, fun _ _ => held_of_cleared⟩
  | frees _ dead =>
    refine ⟨rfl, fun _ live => absurd live ?_, fun _ _ listed => listed⟩
    rcases dead with zombie | unused
    · rw [zombie]
      exact not_live_zombie
    · rw [unused]
      exact not_live_unused

theorem joinLoop_quiet {join : Nat} {progress : Progress}
    (ran : joinLoop k p join = .ok (t, progress)) : Quiet k t := by
  refine quiet_touched (joinLoop_touched ran) fun q old new store root => ?_
  cases store with
  | sleeps => exact ⟨rfl, fun _ _ => .inr (.inr rfl), fun _ _ listed => listed⟩
  | gives => exact .keep rfl rfl rfl
  | strikes => exact ⟨rfl, fun _ live => live, fun _ _ => held_of_cleared⟩
  | frees _ link isJoin =>
    refine ⟨rfl, fun none => ?_, fun _ _ listed => listed⟩
    rw [root, isJoin, link] at none
    cases none

theorem growproc_quiet {n : Int} (ran : growproc k p n = .ok (t, done)) : Quiet k t := by
  rcases growproc_eq ran with ⟨_, same⟩ | ⟨d, dir, mem, dir', sz, _, _, _, cases⟩
  · rw [same]
    exact Quiet.refl k
  have moved : Quiet k ((k.setMem mem).setDir d (some dir')) := Quiet.of_proc rfl rfl rfl
  rcases cases with ⟨_, _, same⟩ | ⟨_, _, same⟩
  · rw [same]
    exact moved
  · rw [same]
    exact moved.trans (quiet_keep rfl rfl rfl)

theorem exec_quiet {image : Option (List UInt8)} {argv : List (List UInt8)}
    (ran : exec k p image argv = .ok (t, done)) : Quiet k t := by
  rcases exec_eq ran with ⟨_, same⟩ | ⟨m, _, _, same⟩ |
    ⟨m, d, dir, elf, file, m', dir', loaded, _, _, ⟨m'', _, _, _, same⟩ |
      ⟨sz, e, old, mem, _, _, _, _, _, same⟩⟩
  · rw [same]
    exact Quiet.refl k
  · rw [same]
    exact Quiet.of_proc rfl rfl rfl
  · rw [same]
    exact Quiet.of_proc rfl rfl rfl
  · rw [same]
    have moved : Quiet k (((k.setMem mem).setDir d (some dir')).setDir e none) :=
      Quiet.of_proc rfl rfl rfl
    exact moved.trans (quiet_keep rfl rfl rfl)

theorem kill_quiet (k : Kernel) (pid : Nat) : Quiet k (kill k pid).1 := by
  obtain ⟨queues, strides⟩ := (kill_only k pid).scheduler
  refine .of_slots queues strides fun q => ?_
  obtain ⟨killed, state, same, _, woken⟩ := kill_slot k pid q
  rw [same]
  exact ⟨rfl, fun _ => woken.live.1.mpr, fun _ _ listed => listed⟩

theorem thread_exit_quiet (link : (k.proc p).master = some master)
    (ran : thread_exit k p retval = .ok t) :
    Quiet k t := by
  obtain ⟨v, orphaned, bystander, slot⟩ := thread_exit_slot link ran
  obtain ⟨queues, strides⟩ := (thread_exit_only link ran).scheduler
  refine .of_slots queues strides fun q => ?_
  have before := quiet_bystander (bystander q)
  rw [slot q]
  refine ⟨before.seat, fun root live => ?_, before.lists⟩
  have other : q ≠ p := by
    intro here
    rw [here, link] at root
    cases root
  rw [if_neg other]
  exact before.live root live

/-- The queue of level 0 has a free slot. -/
def Room (k : Kernel) : Prop := ∃ i < NPROC, (k.queues 0).holdingproc i = none

instance (k : Kernel) : Decidable (Room k) :=
  inferInstanceAs (Decidable (∃ i < NPROC, (k.queues 0).holdingproc i = none))

/-- A new process is put into the queue of level 0, if there is room. -/
structure Seated (k t : Kernel) (np : Nat) : Prop where
  vacant : ¬ Live (k.proc np).state
  strides : t.strides = k.strides
  others : ∀ q, q ≠ np → t.proc q = k.proc q
  mystride : (t.proc np).mystride = 0
  master : (t.proc np).master = (k.proc np).master
  curthread : (t.proc np).curthread = (k.proc np).curthread
  lists : (t.proc np).workerthread = (k.proc np).workerthread
  state : (t.proc np).state = (k.proc np).state
  own : (t.proc np).isstride = false ∧ (t.proc np).level = 0 ∨
    ¬ Room k ∧ (t.proc np).isstride = (k.proc np).isstride ∧ (t.proc np).level = (k.proc np).level

/-- A new thread gets the seat of its master. -/
structure Recruited (k t : Kernel) (np master : Nat) : Prop where
  vacant : ¬ Live (k.proc np).state
  strides : t.strides = k.strides
  seat : ∀ q, q ≠ np → seat (t.proc q) = seat (k.proc q)
  state : ∀ q, (t.proc q).state = (k.proc q).state
  lists : ∀ q i w, (t.proc q).workerthread i = some w → (k.proc q).workerthread i = some w ∨ w = np
  link : (t.proc np).master ≠ none
  curthread : (t.proc np).curthread = (k.proc np).curthread
  isstride : (t.proc np).isstride = (k.proc master).isstride
  mystride : (t.proc np).mystride = (k.proc master).mystride
  level : (t.proc np).level = (k.proc master).level

/-- What a call can do; only `fork` takes a slot for a process. -/
inductive Effects (k t : Kernel) : Bool → Prop where
  | quiet (forks : Bool) (given : Quiet k t) : Effects k t forks
  | fork (u v : Kernel) (np : Nat) (before : Quiet k u) (seated : Seated u v np)
      (after : Quiet v t) :
      Effects k t true
  | thread (forks : Bool) (u v : Kernel) (np master : Nat) (before : Quiet k u)
      (recruited : Recruited u v np master) (after : Quiet v t) : Effects k t forks
  | exit (forks : Bool) (u v : Kernel) (h : Nat) (before : Quiet k u)
      (ran : unschedule u h = .ok v)
      (after : t = v.setProc h { v.proc h with state := .zombie }) : Effects k t forks

/-- Whether a call is `fork`. -/
def forks : Event → Bool
  | .fork _ => true
  | _ => false

theorem claim_quiet (found : k.unusedSlot = some np) : Quiet k (k.claim np) := by
  have unused := (unusedSlot_spec found).2
  have set : Quiet k (k.setProc np { k.proc np with state := .embryo, pid := k.nextpid }) := by
    refine quiet_set rfl ?_ fun _ _ listed => listed
    intro _ live
    rw [unused] at live
    exact absurd live not_live_unused
  exact set.trans (Quiet.of_proc rfl rfl rfl)

theorem allocStack_quiet (vacant : ¬ Live (k.proc np).state) (ran : k.allocStack np = (t, done)) :
    Quiet k t ∧ ¬ Live (t.proc np).state := by
  cases done with
  | false =>
    rw [(allocStack_false ran).1, setProc_self]
    exact ⟨quiet_set rfl (fun _ live => absurd live vacant) fun _ _ listed => listed,
      not_live_unused⟩
  | true =>
    obtain ⟨m, frame, _, same⟩ := allocStack_eq_true ran
    have moved : Quiet k (k.setMem m) := Quiet.of_proc rfl rfl rfl
    rw [same, setProc_self]
    exact ⟨moved.trans (quiet_keep rfl rfl rfl), vacant⟩

theorem claim_vacant (k : Kernel) (np : Nat) : ¬ Live ((k.claim np).proc np).state := by
  rw [claim_proc, update_self]
  exact not_live_embryo

section

variable (vacant : ¬ Live (k.proc np).state)
include vacant

theorem push_seated : let u := (push_MLFQ k np 0).1
    Seated k (u.setProc np { u.proc np with mystride := 0 }) np := by
  unfold push_MLFQ
  split
  · rename_i full
    have none : ¬ Room k := by
      rintro ⟨i, inside, free⟩
      have held := Scan.first_eq_none full i (Nat.zero_le i) (by omega)
      rw [free] at held
      cases held
    refine ⟨vacant, rfl, fun q other => update_of_ne other _ _, ?_, ?_, ?_, ?_, ?_,
      .inr ⟨none, ?_⟩⟩ <;>
      simp only [setProc_proc, update_self, and_self]
  · refine ⟨vacant, rfl, ?_, ?_, ?_, ?_, ?_, ?_, .inl ?_⟩
    · intro q other
      simp only [setProc_proc, setQueue_proc, update_of_ne other]
    all_goals simp only [setProc_proc, setQueue_proc, update_self, and_self]

theorem allocprocRest_moves (ran : allocprocRest k np = (t, true)) : ∃ u, Quiet k u ∧
    Seated u t np := by
  unfold allocprocRest at ran
  split at ran
  · cases ran
  · rename_i u stacked
    obtain ⟨quiet, vacant⟩ := allocStack_quiet vacant stacked
    cases ran
    exact ⟨u, quiet, push_seated vacant⟩

theorem forkRest_quiet (ran : forkRest k p np = .ok (t, made)) : Quiet k t := by
  obtain ⟨e, dir, m, _, _, ⟨_, _, page, _, same⟩ | ⟨d, new, _, _, same⟩⟩ := forkRest_eq ran
  · have moved : Quiet k (k.setMem (Vm.kfree m page)) := Quiet.of_proc rfl rfl rfl
    rw [same]
    exact moved.trans (quiet_set rfl (fun _ live => absurd live vacant) fun _ _ listed => listed)
  · have moved : Quiet k ((k.setMem m).setDir d (some new)) := Quiet.of_proc rfl rfl rfl
    rw [same]
    exact moved.trans (quiet_set rfl (fun _ live => absurd live vacant) fun _ _ listed => listed)

end

section

variable (ran : fork k p = .ok (t, made))
include ran

theorem fork_moves : Quiet k t ∨ ∃ u v np, Quiet k u ∧ Seated u v np ∧ Quiet v t := by
  rcases fork_eq ran with ⟨_, same⟩ | ⟨np, found, rest⟩
  · rw [same]
    exact .inl (Quiet.refl k)
  have claimed := claim_quiet found
  rcases rest with ⟨_, failed⟩ | ⟨v, taken, rest⟩
  · exact .inl (claimed.trans (allocStack_quiet (claim_vacant k np) (allocprocRest_false failed)).1)
  · obtain ⟨u, quiet, seated⟩ := allocprocRest_moves (claim_vacant k np) taken
    refine .inr ⟨u, v, np, claimed.trans quiet, seated, forkRest_quiet ?_ rest⟩
    rw [seated.state]
    exact seated.vacant

theorem fork_effects : Effects k t true := by
  rcases fork_moves ran with quiet | ⟨u, v, np, before, seated, after⟩
  · exact .quiet _ quiet
  · exact .fork u v np before seated after

theorem fork_strides : t.strides = k.strides := by
  rcases fork_moves ran with quiet | ⟨u, v, np, before, seated, after⟩
  · exact quiet.strides
  · exact after.strides.trans (seated.strides.trans before.strides)

end

theorem allocthreadRest_recruited (vacant : ¬ Live (k.proc np).state)
    (ran : allocthreadRest k master np = .ok (t, true)) : Recruited k t np master := by
  obtain ⟨_, strides, frame, i, slot⟩ := allocthreadRest_slot ran
  have seats :
    ∀ q, seat (t.proc q) = seat (if q = np then recruit (k.proc q) (k.proc master) frame master i
      else k.proc q) := by
    intro q
    rw [slot q]
    split
    all_goals rfl
  have own : seat (t.proc np) = seat (recruit (k.proc np) (k.proc master) frame master i) := by
    rw [seats, if_pos rfl]
  refine ⟨vacant, strides, fun q other => ?_, fun q => ?_, fun q j w => listed_of_allocthread ran,
      ?_,
    (seat_curthread own :), (seat_isstride own :), (seat_mystride own :), (seat_level own :)⟩
  · rw [seats, if_neg other]
  · rw [slot q]
    split
    all_goals split
    all_goals rfl
  · rw [seat_master own]
    exact Option.some_ne_none master

theorem threadRest_quiet (link : (k.proc np).master ≠ none)
    (ran : threadRest k master np arg = .ok (t, made)) :
    Quiet k t := by
  refine quiet_touched (threadRest_touched ran) fun q old new store root => ?_
  cases store with
  | resizes => exact .keep rfl rfl rfl
  | starts isNew =>
    rw [isNew] at root
    exact ⟨rfl, fun none => absurd (root.symm.trans none) link, fun _ _ listed => listed⟩

theorem thread_create_effects (ran : thread_create k p arg = .ok (t, made)) :
    Effects k t false := by
  rcases thread_create_eq ran with ⟨_, _, same⟩ | ⟨np, found, rest⟩
  · rw [same]
    exact .quiet _ (Quiet.refl k)
  · have claimed := claim_quiet found
    rcases rest with ⟨_, failed⟩ | ⟨v, taken, rest⟩
    · exact .quiet _
        (claimed.trans (allocStack_quiet (claim_vacant k np) (allocthreadRest_false failed)).1)
    · have recruited := allocthreadRest_recruited (claim_vacant k np) taken
      exact .thread _ _ v np _ claimed recruited (threadRest_quiet recruited.link rest)

theorem exit_effects (linked : Linked k) (ran : exit k p = .ok t) : Effects k t false := by
  obtain ⟨v, w, isV, unscheduled, result⟩ := exit_eq ran
  have before := orphan_quiet k ((k.proc (k.masterOf p)).parent.map Chan.proc) (k.masterOf p)
  rw [← isV] at before
  exact .exit _ _ w (k.masterOf p) (before.trans (endWorkers_quiet (linked.quiet before) _))
    unscheduled
    result

theorem thread_exit_effects (linked : Linked k) (ran : thread_exit k p retval = .ok t) :
    Effects k t false := by
  obtain ⟨link, ran⟩ | ⟨master, link⟩ := thread_exit_cases ran
  · exact exit_effects linked ran
  exact .quiet _ (thread_exit_quiet link ran)

/-- What a call does to the data of the scheduler. -/
theorem call_effects {m next : Machine} {event : Event} (linked : Linked m.k)
    (taken : step m event = some next) : Effects m.k next.k (forks event) := by
  have onCpu : ∀ {p : Nat} {new : Proc}, seat new = seat (m.k.proc p) → Live new.state →
      new.workerthread = (m.k.proc p).workerthread → Quiet m.k (m.k.setProc p new) :=
    fun same live lists => quiet_set same (fun _ _ => live)
      fun _ _ listed => by rwa [lists] at listed
  cases did_of_step taken with
  | fork _ ran => exact fork_effects ran
  | threadCreate _ ran => exact thread_create_effects ran
  | threadExit _ ran => exact thread_exit_effects linked ran
  | joinFree => exact .quiet _ (Quiet.refl _)
  | threadJoin _ _ looks | joinAgain _ _ looks =>
    rw [join_kernel]
    exact .quiet _ (joinLoop_quiet looks)
  | exit _ ran => exact exit_effects linked ran
  | wait _ ran => exact .quiet _ (wait_quiet linked ran)
  | exec _ ran => exact .quiet _ (exec_quiet ran)
  | sbrk _ ran => exact .quiet _ (growproc_quiet ran)
  | kill => exact .quiet _ (kill_quiet _ _)
  | dispatch => exact .quiet _ (onCpu rfl (.inr (.inl rfl)) rfl)
  | yield => exact .quiet _ (onCpu rfl (.inl rfl) rfl)
  | sleep => exact .quiet _ (onCpu rfl (.inr (.inr rfl)) rfl)
  | wakeup => exact .quiet _ (wakeup1_quiet _ _)

/-- The data of the scheduler after `userinit`: no entry is in use, and nobody is in a group. -/
structure Fresh (k : Kernel) : Prop where
  seat : ∀ q, seat (k.proc q) = (none, false, 0, 0, 0)
  lists : ∀ q i, (k.proc q).workerthread i = none
  first : ∃ p, k.strides 0 = ⟨0, 0, 20, some p⟩
  others : ∀ j, j ≠ 0 → k.strides j = ⟨0, 0, 0, none⟩

theorem allocproc_moves (ran : allocproc k = (t, some np)) : ∃ u, Quiet k u ∧ Seated u t np := by
  obtain ⟨found, taken⟩ := allocproc_some ran
  obtain ⟨v, quiet, seated⟩ := allocprocRest_moves (claim_vacant k np) taken
  exact ⟨v, (claim_quiet found).trans quiet, seated⟩

theorem fresh_userinit {m : Vm.Mem} {code : Nat → UInt8}
    (booted : userinit (Kernel.boot m) code = .ok k) :
    Fresh k := by
  unfold userinit at booted
  dsimp only at booted
  generalize isStart : ({ (Kernel.boot m).setStride 0 { (Kernel.boot m).strides 0 with
      share := 20, pass := 0 } with
    strides := _, queues := _ } : Kernel) = start at booted
  split at booted
  · cases booted
  rename_i u p allocated
  obtain ⟨⟨m₁, made⟩, _, booted⟩ := bind_eq_ok.mp booted
  cases made with
  | none => cases booted
  | some pair =>
    obtain ⟨⟨m₂, dir₂⟩, _, booted⟩ := bind_eq_ok.mp booted
    cases booted
    obtain ⟨w, quiet, seated⟩ := allocproc_moves allocated
    have empty : ∀ q, seat (w.proc q) = (none, false, 0, 0, 0) := by
      intro q
      rw [quiet.seat, ← isStart]
      rfl
    have lists : ∀ q i, (w.proc q).workerthread i = none := by
      intro q i
      cases listed : (w.proc q).workerthread i with
      | none => rfl
      | some v =>
        have before := quiet.lists q i v listed
        rw [← isStart] at before
        cases before
    have strides : u.strides = start.strides := seated.strides.trans quiet.strides
    refine ⟨?_, ?_, ⟨p, ?_⟩, ?_⟩
    · intro q
      rw [setProc_same seat (by rfl)]
      show seat (u.proc q) = _
      by_cases same : q = p
      · have old := empty p
        rw [same]
        unfold seat at old ⊢
        simp only [Prod.mk.injEq] at old ⊢
        rw [seated.master, seated.curthread]
        refine ⟨old.1, ?_, seated.mystride, ?_, old.2.2.2.2⟩
        · rcases seated.own with own | own
          · exact own.1
          · exact own.2.1.trans old.2.1
        · rcases seated.own with own | own
          · exact own.2
          · exact own.2.2.trans old.2.2.2.1
      · rw [seated.others q same]
        exact empty q
    · intro q i
      rw [setProc_same (·.workerthread) (by rfl)]
      show (u.proc q).workerthread i = none
      by_cases same : q = p
      · rw [same, seated.lists]
        exact lists p i
      · rw [seated.others q same]
        exact lists q i
    · show update u.strides 0 _ 0 = _
      rw [update_self, strides, ← isStart]
      rfl
    · intro j other
      show update u.strides 0 _ j = _
      rw [update_of_ne other, strides, ← isStart]
      simp only [Kernel.setStride, update_of_ne other]
      split
      · rfl
      · rfl

end Xv6.Process.Seats
