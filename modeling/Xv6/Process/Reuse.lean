import Xv6.Process.Calm

/- Runs of the process table, and the slots that `allocproc` takes again. `fork` and `thread_create`
claim their slot under `ptable.lock` and go on without it; the other calls are one step each. -/
namespace Xv6.Process.Reuse

open Function Outcome Option

variable {new : Proc}

/-- Where a process is in `fork` or `thread_create`. -/
inductive Pending where
  | out
  | claimed (np : Nat)
  | forking (np : Nat)
  | threading (master np : Nat)
deriving DecidableEq

/-- The slot that is claimed. -/
def Pending.claim : Pending → Option Nat
  | .claimed np => some np
  | _ => none

structure Sys where
  k : Kernel
  roles : Roles
  pending : Nat → Pending

/-- The process may be running. `exit` by another member of its group sets the state of a thread
that runs on. -/
def Sys.OnCpu (s : Sys) (p : Nat) : Prop := (s.k.proc p).state = .running ∨ ¬ s.roles.Never p
deriving Decidable

inductive Event where
  | claim (p : Nat)
  | allocproc (p : Nat)
  | fork (p : Nat)
  | allocthread (p : Nat)
  | threadCreate (p arg : Nat)
  | threadExit (p retval : Nat)
  | threadJoin (p thread : Nat)
  | joinAgain (p join : Nat)
  | exit (p : Nat)
  | wait (p : Nat)
  | kill (pid : Nat)
  | fault (p : Nat)
  | dispatch (p : Nat)
  | yield (p : Nat)
  | sleep (p : Nat) (chan : Option Chan)
  | wakeup (chan : Option Chan)

/-- A call of `p`, which is running and in no other call. -/
def Sys.call (s : Sys) (p : Nat) (outcome : Option Kernel) : Option Sys :=
  if s.OnCpu p ∧ s.pending p = .out then outcome.map fun k => { s with k := k } else none

/-- The end of a part of `fork` or `thread_create` by `p`. -/
def Sys.goOn (s : Sys) (p : Nat) (k : Kernel) (pending : Pending) : Sys :=
  { s with k := k, pending := update s.pending p pending }

/-- `fault` is a trap that sets `killed`; `joinAgain` is the loop of `thread_join` after a
wake-up. -/
def step (s : Sys) : Event → Option Sys
  | .claim p =>
    if s.OnCpu p ∧ s.pending p = .out then
      match s.k.unusedSlot with
      | none => some s
      | some np => some (s.goOn p (s.k.claim np) (.claimed np))
    else none
  | .allocproc p =>
    match s.pending p with
    | .claimed np =>
      if s.OnCpu p then
        match allocprocRest s.k np with
        | (k, true) => some (s.goOn p k (.forking np))
        | (k, false) => some (s.goOn p k .out)
      else none
    | _ => none
  | .fork p =>
    match s.pending p with
    | .forking np =>
      if s.OnCpu p then (forkRest s.k p np).toOption.map fun (k, _) => s.goOn p k .out else none
    | _ => none
  | .allocthread p =>
    match s.pending p with
    | .claimed np =>
      let master := s.k.masterOf p
      if s.OnCpu p then
        (allocthreadRest s.k master np).toOption.map fun (k, done) =>
          if done then { s.goOn p k (.threading master np) with roles := s.roles.mark master np }
          else s.goOn p k .out
      else none
    | _ => none
  | .threadCreate p arg =>
    match s.pending p with
    | .threading master np =>
      if s.OnCpu p then
        (threadRest s.k master np arg).toOption.map fun (k, _) => s.goOn p k .out
      else none
    | _ => none
  | .threadExit p retval => s.call p (thread_exit s.k p retval).toOption
  | .threadJoin p thread => s.call p ((thread_join s.k p thread).toOption.map Prod.fst)
  | .joinAgain p join => s.call p ((joinLoop s.k p join).toOption.map Prod.fst)
  | .exit p => s.call p (exit s.k p).toOption
  | .wait p => s.call p ((wait s.k p).toOption.map Prod.fst)
  | .kill pid => some { s with k := (kill s.k pid).1 }
  | .fault p =>
    if s.OnCpu p then some { s with k := s.k.setProc p { s.k.proc p with killed := true } }
      else none
  | .dispatch p =>
    if (s.k.proc p).state = .runnable then
      some { s with k := s.k.setProc p { s.k.proc p with state := .running } }
    else none
  | .yield p =>
    if s.OnCpu p then some { s with k := s.k.setProc p { s.k.proc p with state := .runnable } }
    else none
  | .sleep p chan =>
    if s.OnCpu p then
      some { s with k := s.k.setProc p { s.k.proc p with chan := chan, state := .sleeping } }
    else none
  | .wakeup chan => some { s with k := wakeup1 s.k chan }

/-- `allocproc` takes a slot that has never belonged to a thread group, and `kill` finds no slot
that is idle. -/
def Careful (s : Sys) : Event → Prop
  | .allocproc p => ∀ np ∈ (s.pending p).claim, s.roles.Never np
  | .kill pid => ∀ p ∈ s.k.slotOf pid, ¬ Idle (s.k.proc p)
  | _ => True

/-- `p` has claimed `np` and may give it back. -/
def Sys.Names (s : Sys) (p np : Nat) : Prop := s.pending p = .claimed np ∨ s.pending p = .forking np

/-- The invariant of runs. -/
structure Good (s : Sys) : Prop where
  tidy : Tidy s.roles s.k.proc
  embryo : ∀ p np, s.Names p np → s.roles.Never np → (s.k.proc np).state = .embryo
  unique : ∀ p q np, s.Names p np → s.Names q np → s.roles.Never np → p = q
  forking : ∀ p np, s.pending p = .forking np → s.roles.Never np
  threading : ∀ p master np, s.pending p = .threading master np → ¬ s.roles.Never master ∧
    ¬ s.roles.Never np

variable {s next : Sys} {k : Kernel} {p q np : Nat}

theorem Good.calm (good : Good s) (calm : Calm s.roles s.k.proc k.proc) :
    Good { s with k := k } := by
  constructor
  · exact calm.tidy good.tidy
  · intro p np names never
    exact (calm.still np never).mpr (good.embryo p np names never)
  · exact good.unique
  · exact good.forking
  · exact good.threading

theorem Sys.OnCpu.awake (running : s.OnCpu p) : Awake s.roles s.k.proc p := by
  intro never embryo
  cases running with
  | inl running =>
    rw [running] at embryo
    cases embryo
  | inr member => exact member never

section

variable (good : Good s)
include good

theorem Good.call {outcome : Option Kernel}
    (calm : ∀ k, outcome = some k → Awake s.roles s.k.proc p → Calm s.roles s.k.proc k.proc)
    (taken : s.call p outcome = some next) : Good next := by
  obtain ⟨given, taken⟩ := ite_none_right_eq_some.mp taken
  obtain ⟨k, found, same⟩ := map_eq_some_iff.mp taken
  rw [← same]
  exact good.calm (calm k found given.1.awake)

/-- A step of `fork`, or one of `thread_create` that makes no thread. -/
theorem Good.goOn {pending : Pending} (quiet : Quiet s.roles s.k.proc k.proc)
    (others : ∀ q c, q ≠ p → s.Names q c → s.roles.Never c → (k.proc c).state = .embryo)
    (embryo : ∀ c, pending = .claimed c ∨ pending = .forking c → s.roles.Never c →
      (k.proc c).state = .embryo ∧ ∀ q, q ≠ p → ¬ s.Names q c)
    (forking : ∀ c, pending = .forking c → s.roles.Never c)
    (threading : ∀ m c, pending ≠ .threading m c) :
    Good (s.goOn p k pending) := by
  have own : (s.goOn p k pending).pending p = pending := by
    simp only [Sys.goOn, update_self]
  have rest : ∀ q, q ≠ p → (s.goOn p k pending).pending q = s.pending q := by
    intro q other
    simp only [Sys.goOn, update_of_ne other]
  have names : ∀ q c, (s.goOn p k pending).Names q c → (q = p ∧ (pending = .claimed c ∨
      pending = .forking c)) ∨ (q ≠ p ∧ s.Names q c) := by
    intro q c named
    unfold Sys.Names at named
    by_cases equal : q = p
    · rw [equal, own] at named
      exact .inl ⟨equal, named⟩
    · rw [rest q equal] at named
      exact .inr ⟨equal, named⟩
  constructor
  · exact quiet.tidy good.tidy
  · intro q c named never
    rcases names q c named with ⟨_, mine⟩ | ⟨other, named⟩
    · exact (embryo c mine never).1
    · exact others q c other named never
  · intro a b c first second never
    rcases names a c first with ⟨isP, mine⟩ | ⟨other, first⟩
    · rcases names b c second with ⟨isP', _⟩ | ⟨other, second⟩
      · rw [isP, isP']
      · exact absurd second ((embryo c mine never).2 b other)
    · rcases names b c second with ⟨_, mine⟩ | ⟨_, second⟩
      · exact absurd first ((embryo c mine never).2 a other)
      · exact good.unique a b c first second never
  · intro q c found
    by_cases equal : q = p
    · rw [equal, own] at found
      exact forking c found
    · rw [rest q equal] at found
      exact good.forking q c found
  · intro q m c found
    by_cases equal : q = p
    · rw [equal, own] at found
      exact absurd found (threading m c)
    · rw [rest q equal] at found
      exact good.threading q m c found

/-- Only the slot `np` changes, and no other process names it. -/
theorem Good.others (named : s.Names p np) (proc : k.proc = update s.k.proc np new) :
    ∀ q c, q ≠ p → s.Names q c → s.roles.Never c → (k.proc c).state = .embryo := by
  intro q c other names never
  have different : c ≠ np := by
    intro equal
    rw [equal] at names never
    exact other (good.unique q p np names named never)
  rw [proc, update_of_ne different]
  exact good.embryo q c names never

theorem good_claim (taken : step s (.claim p) = some next) : Good next := by
  obtain ⟨given, taken⟩ := ite_none_right_eq_some.mp taken
  split at taken
  · cases taken
    exact good
  rename_i np found
  cases taken
  have unused := (unusedSlot_spec found).2
  have unnamed : ∀ q, s.roles.Never np → ¬ s.Names q np := by
    intro q never named
    rw [good.embryo q np named never] at unused
    cases unused
  apply good.goOn
  · apply Quiet.set
    · intro never
      exact ⟨⟨rfl, rfl, rfl, rfl, rfl⟩, fun _ => .inr ⟨.inl unused, rfl⟩⟩
    · rfl
    · exact fun _ _ held => held
  · intro q c _ named never
    have different : c ≠ np := by
      intro equal
      rw [equal] at named never
      exact unnamed q never named
    rw [claim_proc, update_of_ne different]
    exact good.embryo q c named never
  · intro c mine never
    have same : c = np := by
      rcases mine with mine | mine
      · cases mine
        rfl
      · cases mine
    rw [same] at never ⊢
    constructor
    · rw [claim_proc, update_self]
    · exact fun q _ => unnamed q never
  · intro c mine
    cases mine
  · intro m c
    exact Pending.noConfusion

/-- A claimed slot that is given back, or that another field of changes. -/
theorem Good.quiet_claimed (named : s.Names p np) (same : SameThreads new (s.k.proc np))
    (killed : new.killed = (s.k.proc np).killed) :
    Quiet s.roles s.k.proc (update s.k.proc np new) := by
  apply Quiet.set
  · intro never
    constructor
    · exact same
    · intro _
      exact .inr ⟨.inr (good.embryo p np named never), killed⟩
  · exact same.master
  · intro i w held
    rw [same.workerthread] at held
    exact held

theorem good_given_back (named : s.Names p np) (proc : k.proc = update s.k.proc np new)
    (same : SameThreads new (s.k.proc np)) (killed : new.killed = (s.k.proc np).killed) :
    Good (s.goOn p k .out) := by
  apply good.goOn
  · rw [proc]
    exact good.quiet_claimed named same killed
  · exact good.others named proc
  · intro c mine
    rcases mine with mine | mine
    · cases mine
    · cases mine
  · intro c mine
    cases mine
  · intro m c
    exact Pending.noConfusion

theorem good_allocproc (careful : Careful s (.allocproc p))
    (taken : step s (.allocproc p) = some next) :
    Good next := by
  unfold step at taken
  dsimp only at taken
  split at taken
  · rename_i np pending
    have never : s.roles.Never np := by
      apply careful
      rw [pending]
      rfl
    have named : s.Names p np := .inl pending
    obtain ⟨_, taken⟩ := ite_none_right_eq_some.mp taken
    split at taken
    · rename_i k ran
      cases taken
      obtain ⟨frame, level, fqtick, isstride, proc⟩ := allocprocRest_slot ran
      apply good.goOn
      · rw [proc]
        apply good.quiet_claimed named
        · exact ⟨rfl, rfl, rfl, rfl, rfl⟩
        · rfl
      · exact good.others named proc
      · intro c mine never
        have same : c = np := by
          rcases mine with mine | mine
          · cases mine
          · cases mine
            rfl
        rw [same] at never ⊢
        constructor
        · rw [proc, update_self]
          exact good.embryo p np named never
        · intro q other names
          exact other (good.unique q p np names named never)
      · intro c mine
        cases mine
        exact never
      · intro m c
        exact Pending.noConfusion
    · rename_i k ran
      cases taken
      apply good_given_back good named
        (congrArg Kernel.proc (allocStack_false (allocprocRest_false ran)).1)
      · exact ⟨rfl, rfl, rfl, rfl, rfl⟩
      · rfl
  · cases taken

theorem good_fork (taken : step s (.fork p) = some next) : Good next := by
  unfold step at taken
  dsimp only at taken
  split at taken
  · rename_i np pending
    have named : s.Names p np := .inr pending
    obtain ⟨_, taken⟩ := ite_none_right_eq_some.mp taken
    obtain ⟨⟨k, made⟩, ran, same⟩ := map_eq_some_iff.mp taken
    rw [toOption_eq_some] at ran
    rw [← same]
    cases made with
    | none =>
      apply good_given_back good named (forkRest_none ran).2.1
      · exact ⟨rfl, rfl, rfl, rfl, rfl⟩
      · rfl
    | some c =>
      obtain ⟨_, _, d, proc⟩ := forkRest_some ran
      apply good_given_back good named proc
      · exact ⟨rfl, rfl, rfl, rfl, rfl⟩
      · rfl
  · cases taken

/-- A new thread leaves the slots alone that a `fork` has taken. -/
theorem good_new_thread {master : Nat} (named : s.Names p np)
    (leader : Awake s.roles s.k.proc master) (ran : allocthreadRest s.k master np = .ok (k, true)) :
    Good { s.goOn p k (.threading master np) with roles := s.roles.mark master np } := by
  have rest : ∀ q c, q ≠ p → s.Names q c → s.roles.Never c → c ≠ master ∧ c ≠ np := by
    intro q c other names never
    constructor
    · intro equal
      rw [equal] at names never
      exact leader never (good.embryo q master names never)
    · intro equal
      rw [equal] at names never
      exact other (good.unique q p np names named never)
  have pending : ∀ q, q ≠ p → (s.goOn p k (.threading master np)).pending q = s.pending q := by
    intro q other
    simp only [Sys.goOn, update_of_ne other]
  have own : (s.goOn p k (.threading master np)).pending p = .threading master np := by
    simp only [Sys.goOn, update_self]
  have others : ∀ q c, (s.goOn p k (.threading master np)).Names q c → q ≠ p ∧ s.Names q c := by
    intro q c names
    unfold Sys.Names at names
    by_cases equal : q = p
    · rw [equal, own] at names
      rcases names with names | names
      · cases names
      · cases names
    · rw [pending q equal] at names
      exact ⟨equal, names⟩
  constructor
  · exact allocthreadRest_tidy good.tidy ran
  · intro q c names never
    have before := never.of_mark
    obtain ⟨_, names⟩ := others q c names
    obtain ⟨_, _, frame, i, slot⟩ := allocthreadRest_slot ran
    show (k.proc c).state = .embryo
    rw [slot c, if_neg before.2.1, if_neg before.2.2]
    exact good.embryo q c names before.1
  · intro a b c first second never
    exact good.unique a b c (others a c first).2 (others b c second).2 never.of_mark.1
  · intro q c found
    have names := others q c (.inr found)
    rw [pending q names.1] at found
    have never := good.forking q c found
    have apart := rest q c names.1 names.2 never
    unfold Roles.Never Roles.mark
    dsimp only
    rw [update_of_ne apart.1, update_of_ne apart.2]
    exact never
  · intro q m c found
    by_cases equal : q = p
    · rw [equal] at found
      cases own.symm.trans found
      constructor
      · exact not_never_of_led (mark_led s.roles master np)
      · exact not_never_of_worked (mark_worked s.roles master np)
    · have before := good.threading q m c ((pending q equal).symm.trans found)
      exact ⟨fun never => before.1 never.of_mark.1, fun never => before.2 never.of_mark.1⟩

theorem good_allocthread (taken : step s (.allocthread p) = some next) : Good next := by
  unfold step at taken
  dsimp only at taken
  split at taken
  · rename_i np pending
    have named : s.Names p np := .inl pending
    obtain ⟨running, taken⟩ := ite_none_right_eq_some.mp taken
    obtain ⟨⟨k, done⟩, ran, same⟩ := map_eq_some_iff.mp taken
    rw [toOption_eq_some] at ran
    rw [← same]
    cases done with
    | false =>
      apply good_given_back good named
        (congrArg Kernel.proc (allocStack_false (allocthreadRest_false ran)).1)
      · exact ⟨rfl, rfl, rfl, rfl, rfl⟩
      · rfl
    | true => exact good_new_thread good named (good.tidy.awake_masterOf running.awake) ran
  · cases taken

theorem good_threadCreate {arg : Nat} (taken : step s (.threadCreate p arg) = some next) :
    Good next := by
  unfold step at taken
  dsimp only at taken
  split at taken
  · rename_i master np pending
    obtain ⟨_, taken⟩ := ite_none_right_eq_some.mp taken
    obtain ⟨⟨k, made⟩, ran, same⟩ := map_eq_some_iff.mp taken
    rw [toOption_eq_some] at ran
    rw [← same]
    have members := good.threading p master np pending
    have calm := threadRest_calm members.1 members.2 ran
    apply good.goOn calm.toQuiet
    · intro q c _ named never
      exact (calm.still c never).mpr (good.embryo q c named never)
    · intro c mine
      rcases mine with mine | mine
      · cases mine
      · cases mine
    · intro c mine
      cases mine
    · intro m c
      exact Pending.noConfusion
  · cases taken

theorem good_switch (awake : Awake s.roles s.k.proc p) (same : SameThreads new (s.k.proc p))
    (embryo : new.state ≠ .embryo) (unused : new.state ≠ .unused) :
    Good { s with k := s.k.setProc p new } := by
  apply good.calm
  exact .set (.move same awake embryo fun state => absurd state unused)

theorem good_step {event : Event} (careful : Careful s event) (taken : step s event = some next) :
    Good next := by
  cases event with
  | claim p => exact good_claim good taken
  | allocproc p => exact good_allocproc good careful taken
  | fork p => exact good_fork good taken
  | allocthread p => exact good_allocthread good taken
  | threadCreate p arg => exact good_threadCreate good taken
  | threadExit p retval =>
    apply good.call _ taken
    intro k ran awake
    exact thread_exit_calm good.tidy awake (toOption_eq_some.mp ran)
  | threadJoin p thread =>
    apply good.call _ taken
    intro k ran awake
    obtain ⟨_, ran⟩ := toOption_map_fst_eq_some.mp ran
    exact thread_join_calm good.tidy awake ran
  | joinAgain p join =>
    apply good.call _ taken
    intro k ran awake
    obtain ⟨_, ran⟩ := toOption_map_fst_eq_some.mp ran
    exact joinLoop_calm good.tidy awake ran
  | exit p =>
    apply good.call _ taken
    intro k ran awake
    exact exit_calm good.tidy awake (toOption_eq_some.mp ran)
  | wait p =>
    apply good.call _ taken
    intro k ran awake
    obtain ⟨_, ran⟩ := toOption_map_fst_eq_some.mp ran
    exact wait_calm good.tidy awake ran
  | kill pid =>
    cases taken
    apply good.calm
    apply kill_calm _ rfl
    intro p found
    exact careful p found
  | fault p =>
    obtain ⟨running, taken⟩ := ite_none_right_eq_some.mp taken
    cases taken
    apply good.calm
    apply Calm.kill
    intro never idle
    cases idle with
    | inl unused =>
      rw [running.resolve_right (not_not_intro never)] at unused
      cases unused
    | inr embryo => exact running.awake never embryo
  | dispatch p =>
    obtain ⟨runnable, taken⟩ := ite_none_right_eq_some.mp taken
    cases taken
    apply good_switch good
    · intro _ embryo
      rw [runnable] at embryo
      cases embryo
    · exact ⟨rfl, rfl, rfl, rfl, rfl⟩
    · exact ProcState.noConfusion
    · exact ProcState.noConfusion
  | yield p =>
    obtain ⟨running, taken⟩ := ite_none_right_eq_some.mp taken
    cases taken
    apply good_switch good running.awake
    · exact ⟨rfl, rfl, rfl, rfl, rfl⟩
    · exact ProcState.noConfusion
    · exact ProcState.noConfusion
  | sleep p chan =>
    obtain ⟨running, taken⟩ := ite_none_right_eq_some.mp taken
    cases taken
    apply good_switch good running.awake
    · exact ⟨rfl, rfl, rfl, rfl, rfl⟩
    · exact ProcState.noConfusion
    · exact ProcState.noConfusion
  | wakeup chan =>
    cases taken
    exact good.calm (.of_slots fun q => (wakeup1_bystander q s.k chan q).calm)

end

/-- `exit` by process `p` ends only `p`. -/
def EndsOnlyItself (k : Kernel) (p : Nat) : Prop :=
  ∀ t, exit k p = .ok t → ∀ q, q ≠ p → Bystander p (k.proc q) (t.proc q)

theorem ends_only_itself {r : Roles} (tidy : Tidy r k.proc) (never : r.Never p) :
    EndsOnlyItself k p := by
  intro t ran q other
  have plain := tidy.plain p never
  have itself : k.masterOf p = p := by
    unfold Kernel.masterOf
    rw [plain.master, getD_none]
  have lone : k.workers p = [] := by
    unfold Kernel.workers
    rw [List.filterMap_eq_nil_iff]
    intro i _
    exact plain.workerthread i
  have others := exit_bystander (q := q) ran
  rw [itself, lone] at others
  exact others other List.not_mem_nil

/-- A process in a slot that has been no worker is counted by its parent, and its exit ends only
itself as long as it makes no threads. -/
structure Settled (s : Sys) : Prop where
  counted : ∀ p q, s.roles.worked p = false →
    (s.k.isChild q p = true ↔ (s.k.proc p).parent = some q)
  alone : ∀ p, s.roles.Never p → EndsOnlyItself s.k p

theorem Good.settled (good : Good s) : Settled s := by
  constructor
  · intro p q free
    have master : (s.k.proc p).master = none := by
      cases link : (s.k.proc p).master with
      | none => rfl
      | some m =>
        rw [(good.tidy.master p m link).2] at free
        cases free
    unfold Kernel.isChild
    rw [master, Bool.and_eq_true, beq_iff_eq]
    exact and_iff_left rfl
  · intro p never
    exact ends_only_itself good.tidy never

/-- `allocproc` returns a fresh slot, and the child of `fork` is counted by its parent and ends only
itself. -/
def Safe (s : Sys) : Event → Prop
  | .allocproc p => ∀ np k, s.pending p = .claimed np → allocprocRest s.k np = (k, true) →
      Fresh (k.proc np)
  | .fork p => ∀ np k c, s.pending p = .forking np → forkRest s.k p np = .ok (k, some c) →
      Fresh (k.proc c) ∧ k.isChild p c = true ∧ EndsOnlyItself k c
  | _ => True

theorem Good.fresh (good : Good s) (named : s.Names p np) (never : s.roles.Never np)
    (same : SameThreads new (s.k.proc np)) (killed : new.killed = (s.k.proc np).killed) :
    Fresh new := by
  constructor
  · exact same.plain (good.tidy.plain np never)
  · rw [killed]
    exact good.tidy.idle np never (.inr (good.embryo p np named never))

theorem good_safe {event : Event} (good : Good s) (careful : Careful s event) : Safe s event := by
  cases event with
  | allocproc p =>
    intro np k pending ran
    have never : s.roles.Never np := by
      apply careful
      rw [pending]
      rfl
    obtain ⟨frame, level, fqtick, isstride, proc⟩ := allocprocRest_slot ran
    rw [proc, update_self]
    apply good.fresh (.inl pending) never
    · exact ⟨rfl, rfl, rfl, rfl, rfl⟩
    · rfl
  | fork p =>
    intro np k c pending ran
    have named : s.Names p np := .inr pending
    have never := good.forking p np pending
    obtain ⟨same, _, d, proc⟩ := forkRest_some ran
    rw [same]
    have fresh : Fresh (k.proc np) := by
      rw [proc, update_self]
      apply good.fresh named never
      · exact ⟨rfl, rfl, rfl, rfl, rfl⟩
      · rfl
    have after : Good (s.goOn p k .out) := by
      apply good_given_back good named proc
      · exact ⟨rfl, rfl, rfl, rfl, rfl⟩
      · rfl
    refine ⟨fresh, ?_, after.settled.alone np never⟩
    unfold Kernel.isChild
    rw [fresh.master, proc, update_self, Bool.and_eq_true, beq_iff_eq]
    exact ⟨rfl, rfl⟩
  | _ => trivial

/-- The system after `userinit`. -/
def Sys.start (k : Kernel) : Sys := ⟨k, ⟨fun _ => false, fun _ => false⟩, fun _ => .out⟩

theorem start_tidy {m : Vm.Mem} {code : Nat → UInt8} (start : userinit (Kernel.boot m) code = .ok k)
    (r : Roles) : Tidy r k.proc := by
  have boot : Tidy r (Kernel.boot m).proc :=
    ⟨fun _ _ => ⟨rfl, rfl, rfl, fun _ => rfl, fun _ => rfl⟩, fun _ _ _ => rfl, fun _ _ => nofun,
      fun _ _ _ => nofun⟩
  obtain ⟨_, _, _, _, _, _, _, table⟩ := userinit_slot start
  rw [table]
  exact Quiet.tidy (.set (fun _ => ⟨⟨rfl, rfl, rfl, rfl, rfl⟩, fun idle => idle.elim nofun nofun⟩)
      rfl
    fun _ _ held => held) boot

theorem good_start {m : Vm.Mem} {code : Nat → UInt8}
    (start : userinit (Kernel.boot m) code = .ok k) :
    Good (Sys.start k) := by
  have out : ∀ p c, ¬ (Sys.start k).Names p c := by
    intro p c names
    rcases names with names | names
    · cases names
    · cases names
  constructor
  · exact start_tidy start _
  · intro p c names
    exact absurd names (out p c)
  · intro p q c names
    exact absurd names (out p c)
  · intro p c found
    cases found
  · intro p m c found
    cases found

/-- In a run from boot in which `fork` never takes a slot that has belonged to a thread group and
`kill` never finds an idle slot, every slot that `allocproc` returns is fresh, parents count their
children, and `exit` by a process without threads ends nobody else. -/
theorem slots_fresh {m : Vm.Mem} {code : Nat → UInt8} {events : List Event}
    (start : userinit (Kernel.boot m) code = .ok k)
    (careful : Run.Steps step Careful (Sys.start k) events) :
    Run.Steps step Safe (Sys.start k) events ∧
      ∀ last, Run.exec step (Sys.start k) events = some last → Settled last := by
  have keeps : ∀ s event next, Good s → Careful s event → step s event = some next → Good next :=
    fun _ _ _ good careful taken => good_step good careful taken
  constructor
  · apply Run.steps_of_invariant Good keeps _ (good_start start) careful
    intro s event good careful
    exact good_safe good careful
  · intro last run
    exact (Run.exec_invariant Good keeps (good_start start) careful run).settled

instance (s : Sys) (event : Event) : Decidable (Careful s event) := by
  rcases event <;> dsimp only [Careful] <;> infer_instance

/-- The state after a run from boot on the small machine. -/
def afterBoot (events : List Event) : Option Sys :=
  bootSmall.bind fun k => Run.exec step (Sys.start k) events

/-- Init forks, its child makes a thread, and init forks again and kills the child. -/
def carefulRun : List Event :=
  [.dispatch 0, .claim 0, .allocproc 0, .fork 0, .dispatch 1, .claim 1, .allocthread 1,
    .threadCreate 1 0, .claim 0, .allocproc 0, .fork 0, .kill 2, .exit 1, .wait 0]

theorem slots_fresh_small : ∃ k last, userinit (Kernel.boot smallMem) (fun _ => 0) = .ok k ∧
    Run.Steps step Careful (Sys.start k) carefulRun ∧
    Run.exec step (Sys.start k) carefulRun = some last ∧
    Run.Steps step Safe (Sys.start k) carefulRun ∧ Settled last := by
  obtain ⟨k, last, start, ends, careful⟩ := run_small step Sys.start carefulRun
    (fun k _ => Run.Steps step Careful (Sys.start k) carefulRun) (by decide +kernel)
  have fresh := slots_fresh start careful
  exact ⟨k, last, start, careful, ends, fresh.1, fresh.2 last ends⟩

/-- The child makes a thread in slot 2, which it joins, and init forks into slot 2. -/
def recycledRun : List Event :=
  [.dispatch 0, .claim 0, .allocproc 0, .fork 0, .dispatch 1, .claim 1, .allocthread 1,
    .threadCreate 1 0, .dispatch 2, .threadExit 2 0, .threadJoin 1 3, .claim 0,
      .allocproc 0, .fork 0]

/-- The child of `fork` in slot 2 has the other process as its master. Its parent does not count it,
and its `exit` works on the other process and panics. After `kill` of pid 0 a child is born
killed. -/
theorem fork_inherits_master :
    (afterBoot recycledRun).map (fun s => ((s.k.proc 2).parent, (s.k.proc 2).state)) =
      some (some 0, .runnable) ∧
    (afterBoot recycledRun).map (fun s => ((s.k.proc 2).master, (s.k.proc 2).isthread,
      s.k.isChild 0 2)) = some (some 1, true, false) ∧
    (afterBoot (recycledRun ++ [.dispatch 2])).map
      (fun s => (s.k.masterOf 2, failure (exit s.k 2))) = some (1, some .schedRunning) ∧
    (afterBoot [.dispatch 0, .kill 0, .claim 0, .allocproc 0, .fork 0]).map
      (fun s => ((s.k.proc 1).state, (s.k.proc 1).killed)) = some (.runnable, true) := by
  decide +kernel

end Xv6.Process.Reuse
