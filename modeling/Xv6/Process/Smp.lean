import Xv6.Process.Consistent
import Xv6.Process.Reuse

/- Several CPUs, each with its current process. A step is a part of a call under `ptable.lock`, or
the rest of `fork` or `thread_create` after the slot is claimed. -/
namespace Xv6.Process.Smp

open Function Outcome Reuse Option

/-- `cpus c` is `c->proc`. -/
structure Sys (n : Nat) where
  k : Kernel
  cpus : Fin n → Option Nat
  pending : Nat → Pending

inductive Event (n : Nat) where
  | claim (c : Fin n)
  | allocproc (c : Fin n)
  | fork (c : Fin n)
  | allocthread (c : Fin n)
  | threadCreate (c : Fin n) (arg : Nat)
  | threadExit (c : Fin n) (retval : Nat)
  | exit (c : Fin n)
  | wait (c : Fin n)
  | kill (pid : Nat)
  | dispatch (c : Fin n) (p : Nat)
  | yield (c : Fin n)
  | sleep (c : Fin n) (chan : Option Chan)
  | wakeup (chan : Option Chan)

/-- The slot that a call of `fork` or `thread_create` is filling. -/
def slot : Pending → Option Nat
  | .out => none
  | .claimed np => some np
  | .forking np => some np
  | .threading _ np => some np

variable {n : Nat}

/-- The process goes on, at another place in `fork` or `thread_create`. -/
def Sys.goOn (s : Sys n) (p : Nat) (k : Kernel) (pending : Pending) : Sys n :=
  { s with k := k, pending := update s.pending p pending }

/-- `sched` goes back to the scheduler of the CPU, which has no process then. -/
def Sys.leave (s : Sys n) (c : Fin n) (k : Kernel) : Sys n :=
  { s with k := k, cpus := update s.cpus c none }

/-- A call by the process of the CPU, which is in no other call. -/
def Sys.call (s : Sys n) (c : Fin n) (outcome : Nat → Option (Sys n)) : Option (Sys n) :=
  (s.cpus c).bind fun p => if s.pending p = .out then outcome p else none

/-- `yield` and `sleep` set the state whatever it was. -/
def step (s : Sys n) : Event n → Option (Sys n)
  | .claim c => s.call c fun p =>
    match s.k.unusedSlot with
    | none => some s
    | some np => some { s with
        k := s.k.claim np
        pending := update (update s.pending np .out) p (.claimed np) }
  | .allocproc c => (s.cpus c).bind fun p =>
    match s.pending p with
    | .claimed np =>
      match allocprocRest s.k np with
      | (k, true) => some (s.goOn p k (.forking np))
      | (k, false) => some (s.goOn p k .out)
    | _ => none
  | .fork c => (s.cpus c).bind fun p =>
    match s.pending p with
    | .forking np => (forkRest s.k p np).toOption.map fun (k, _) => s.goOn p k .out
    | _ => none
  | .allocthread c => (s.cpus c).bind fun p =>
    match s.pending p with
    | .claimed np =>
      (allocthreadRest s.k (s.k.masterOf p) np).toOption.map fun (k, done) =>
        s.goOn p k (if done then .threading (s.k.masterOf p) np else .out)
    | _ => none
  | .threadCreate c arg => (s.cpus c).bind fun p =>
    match s.pending p with
    | .threading master np =>
      (threadRest s.k master np arg).toOption.map fun (k, _) => s.goOn p k .out
    | _ => none
  | .threadExit c retval => s.call c fun p => (thread_exit s.k p retval).toOption.map (s.leave c)
  | .exit c => s.call c fun p => (exit s.k p).toOption.map (s.leave c)
  | .wait c => s.call c fun p => (wait s.k p).toOption.map fun (k, progress) =>
    match progress with
    | .returned _ => { s with k := k }
    | .sleeps => s.leave c k
  | .kill pid => some { s with k := (kill s.k pid).1 }
  | .dispatch c p =>
    if s.cpus c = none ∧ (s.k.proc p).state = .runnable then
      some { s with
        k := s.k.setProc p { s.k.proc p with state := .running }
        cpus := update s.cpus c (some p) }
    else none
  | .yield c => (s.cpus c).map fun p =>
    s.leave c (s.k.setProc p { s.k.proc p with state := .runnable })
  | .sleep c chan => (s.cpus c).map fun p =>
    s.leave c (s.k.setProc p { s.k.proc p with chan := chan, state := .sleeping })
  | .wakeup chan => some { s with k := wakeup1 s.k chan }

/-- No other CPU runs a member of the group of the process on `c`. -/
def Sys.Alone (s : Sys n) (c : Fin n) : Prop :=
  ∀ p ∈ s.cpus c, ∀ c', c' ≠ c → ∀ q ∈ s.cpus c', s.k.masterOf q ≠ s.k.masterOf p

instance (s : Sys n) (c : Fin n) : Decidable (s.Alone c) :=
  inferInstanceAs (Decidable (∀ p ∈ s.cpus c, ∀ c', c' ≠ c → ∀ q ∈ s.cpus c', _ ≠ _))

/-- A group ends when no other CPU runs one of its members, and `fork` fills no slot that still
names a master. -/
def Careful (s : Sys n) : Event n → Prop
  | .fork c => ∀ p ∈ s.cpus c, ∀ np ∈ slot (s.pending p), (s.k.proc np).master = none
  | .threadExit c _ => ∀ p ∈ s.cpus c, (s.k.proc p).master = none → s.Alone c
  | .exit c => s.Alone c
  | _ => True

/-- What a live process relies on in `fork` or `thread_create`. -/
def Holds (k : Kernel) (p : Nat) : Pending → Prop
  | .out => True
  | .claimed np => (k.proc np).state = .embryo ∧ Unlisted k.proc np
  | .forking np => (k.proc np).state = .embryo ∧ Unlisted k.proc np ∧ (k.proc np).kstack ≠ none
  | .threading master np => (k.proc np).state = .embryo ∧ master = k.masterOf p ∧
      ∃ i, (k.proc master).workerthread i = some np

/-- The current processes are running, each on one CPU. -/
structure Currents (k : Kernel) (cpus : Fin n → Option Nat) : Prop where
  running : ∀ c p, cpus c = some p → (k.proc p).state = .running
  single : ∀ c c' p, cpus c = some p → cpus c' = some p → c = c'

structure Promises (k : Kernel) (pending : Nat → Pending) : Prop where
  idle : ∀ p, (k.proc p).state = .embryo → pending p = .out
  holds : ∀ p, Live (k.proc p).state → Holds k p (pending p)
  once : ∀ p q np, Live (k.proc p).state → Live (k.proc q).state → slot (pending p) = some np →
    slot (pending q) = some np → p = q

/-- The invariant of runs. -/
structure Good (s : Sys n) : Prop where
  consistent : Consistent [] s.k
  currents : Currents s.k s.cpus
  promises : Promises s.k s.pending

/-- The dead stay dead until they are reclaimed. -/
def NoRevival (k t : Kernel) : Prop :=
  ∀ p, (k.proc p).state = .zombie → (t.proc p).state = .zombie ∨ (t.proc p).state = .unused

variable {s next : Sys n} {k t : Kernel} {p q np : Nat} {c : Fin n} {cpus : Fin n → Option Nat}
  {pending : Nat → Pending} {stage : Pending}

section

variable (currents : Currents k cpus)
include currents

theorem Currents.live (runs : cpus c = some p) : Live (k.proc p).state :=
  .inr (.inl (currents.running c p runs))

theorem Currents.keep (same : ∀ q, (k.proc q).state = .running → (t.proc q).state = .running) :
    Currents t cpus :=
  ⟨fun c p runs => same p (currents.running c p runs), currents.single⟩

theorem Currents.leave (same : ∀ c' q, c' ≠ c → cpus c' = some q → (t.proc q).state = .running) :
    Currents t (update cpus c none) := by
  have others : ∀ c' q, update cpus c none c' = some q → c' ≠ c ∧ cpus c' = some q := by
    intro c' q runs
    by_cases here : c' = c
    · rw [here, update_self] at runs
      cases runs
    · rw [update_of_ne here] at runs
      exact ⟨here, runs⟩
  constructor
  · intro c' q runs
    exact same c' q (others c' q runs).1 (others c' q runs).2
  · intro c₁ c₂ q runs runs'
    exact currents.single c₁ c₂ q (others c₁ q runs).2 (others c₂ q runs').2

theorem Currents.dispatch {new : Proc} (ready : (k.proc p).state = .runnable)
    (running : new.state = .running) :
    Currents (k.setProc p new) (update cpus c (some p)) := by
  have absent : ∀ c' q, cpus c' = some q → q ≠ p := by
    intro c' q runs equal
    have state := currents.running c' q runs
    rw [equal, ready] at state
    cases state
  constructor
  · intro c' q runs
    by_cases here : c' = c
    · rw [here, update_self] at runs
      cases runs
      rw [setProc_self, running]
    · rw [update_of_ne here] at runs
      rw [setProc_of_ne (absent c' q runs)]
      exact currents.running c' q runs
  · intro c₁ c₂ q runs runs'
    by_cases first : c₁ = c
    · by_cases second : c₂ = c
      · rw [first, second]
      · rw [first, update_self] at runs
        rw [update_of_ne second] at runs'
        cases runs
        exact absurd rfl (absent c₂ p runs')
    · rw [update_of_ne first] at runs
      by_cases second : c₂ = c
      · rw [second, update_self] at runs'
        cases runs'
        exact absurd rfl (absent c₁ p runs)
      · rw [update_of_ne second] at runs'
        exact currents.single c₁ c₂ q runs runs'

end

/-- The slot of a call is as it was. -/
structure Kept (k t : Kernel) (np : Nat) : Prop where
  state : (t.proc np).state = (k.proc np).state
  kstack : (t.proc np).kstack = (k.proc np).kstack
  lists : ∀ m i, (t.proc m).workerthread i = some np ↔ (k.proc m).workerthread i = some np

theorem Holds.embryo (holds : Holds k p stage) (filling : slot stage = some np) :
    (k.proc np).state = .embryo := by
  cases stage with
  | out => cases filling
  | claimed | forking | threading =>
    cases filling
    exact holds.1

theorem Holds.keep (holds : Holds k p stage) (master : (t.proc p).master = (k.proc p).master)
    (kept : ∀ np, slot stage = some np → Kept k t np) : Holds t p stage := by
  cases stage with
  | out => trivial
  | claimed np =>
    have same := kept np rfl
    refine ⟨same.state.trans holds.1, fun m i listed => ?_⟩
    exact holds.2 m i ((same.lists m i).mp listed)
  | forking np =>
    have same := kept np rfl
    refine ⟨same.state.trans holds.1, fun m i listed => ?_, ?_⟩
    · exact holds.2.1 m i ((same.lists m i).mp listed)
    · rw [same.kstack]
      exact holds.2.2
  | threading m np =>
    have same := kept np rfl
    obtain ⟨embryo, isMaster, i, listed⟩ := holds
    refine ⟨same.state.trans embryo, ?_, i, (same.lists m i).mpr listed⟩
    unfold Kernel.masterOf at isMaster ⊢
    rw [master]
    exact isMaster

section

variable (promises : Promises k pending)
include promises

/-- A step in which nobody goes on with `fork` or `thread_create`. -/
theorem Promises.keep (alive : ∀ q, Live (t.proc q).state → Live (k.proc q).state)
    (embryo : ∀ q, (t.proc q).state = .embryo → (k.proc q).state = .embryo)
    (master : ∀ q, Live (t.proc q).state → (t.proc q).master = (k.proc q).master)
    (kept : ∀ q np, Live (t.proc q).state → slot (pending q) = some np → Kept k t np) :
    Promises t pending := by
  constructor
  · exact fun q new => promises.idle q (embryo q new)
  · intro q live
    exact (promises.holds q (alive q live)).keep (master q live) fun np => kept q np live
  · intro q r np live live'
    exact promises.once q r np (alive q live) (alive r live')

theorem Promises.moves (ties : ∀ q, SameTies (k.proc q) (t.proc q))
    (moves : ∀ q, Moves (k.proc q).state (t.proc q).state) : Promises t pending := by
  have alive : ∀ q, Live (t.proc q).state → Live (k.proc q).state := fun q => (moves q).live.mp
  apply promises.keep alive
  · exact fun q => (moves q).embryo.mp
  · exact fun q _ => (ties q).master
  · intro q np live filling
    have embryo := (promises.holds q (alive q live)).embryo filling
    refine ⟨((moves np).embryo.mpr embryo).trans embryo.symm, (ties np).kstack, fun m i => ?_⟩
    rw [(ties m).workerthread]

/-- Process `p` gets to another place in its call, with a slot that nobody else fills. -/
theorem Promises.set {after : Nat → Pending}
    (idle : ∀ q, (t.proc q).state = .embryo → after q = .out) (own : Holds t p (after p))
    (alone : ∀ np, slot (after p) = some np → ∀ q, q ≠ p → Live (k.proc q).state →
    slot (pending q) ≠ some np) (others : ∀ q, q ≠ p → Live (t.proc q).state → after q = .out ∨
    after q = pending q ∧
      Live (k.proc q).state ∧ (t.proc q).master = (k.proc q).master ∧
      ∀ np, slot (pending q) = some np → Kept k t np) : Promises t after := by
  have filled : ∀ q np, Live (t.proc q).state → slot (after q) = some np →
      q = p ∨ q ≠ p ∧ Live (k.proc q).state ∧ slot (pending q) = some np := by
    intro q np live filling
    refine (eq_or_ne q p).imp id fun other => ?_
    rcases others q other live with out | ⟨same, before, _⟩
    · rw [out] at filling
      cases filling
    · exact ⟨other, before, same ▸ filling⟩
  refine ⟨idle, fun q live => ?_, fun q r np live live' first second => ?_⟩
  · by_cases here : q = p
    · rw [here]
      exact own
    · rcases others q here live with out | ⟨same, before, master, kept⟩
      · rw [out]
        trivial
      · rw [same]
        exact (promises.holds q before).keep master kept
  · rcases filled q np live first with here | ⟨other, before, fills⟩
    · rcases filled r np live' second with here' | ⟨other', before', fills'⟩
      · rw [here, here']
      · exact absurd fills' (alone np (here ▸ first) r other' before')
    · rcases filled r np live' second with here' | ⟨_, before', fills'⟩
      · exact absurd fills (alone np (here' ▸ second) q other before)
      · exact promises.once q r np before before' fills fills'

/-- Process `p` goes on with its call, which fills slot `np`. -/
theorem Promises.goOn (live : Live (k.proc p).state) (filling : slot (pending p) = some np)
    (still : slot stage = none ∨ slot stage = some np)
    (others : ∀ q, q ≠ np → (t.proc q).state = (k.proc q).state ∧
      (t.proc q).master = (k.proc q).master ∧ (t.proc q).kstack = (k.proc q).kstack)
    (lists : ∀ m i q, q ≠ np →
    ((t.proc m).workerthread i = some q ↔ (k.proc m).workerthread i = some q)) (own :
    Holds t p stage) : Promises t (update pending p stage) := by
  have embryo := (promises.holds p live).embryo filling
  have different : p ≠ np := by
    intro equal
    rw [equal, embryo] at live
    exact not_live_embryo live
  have out : pending np = .out := promises.idle np embryo
  -- nobody else fills the slot
  have unique : ∀ q, q ≠ p → Live (k.proc q).state → slot (pending q) ≠ some np :=
    fun q other live' taken => other (promises.once q p np live' live taken filling)
  apply promises.set
  · intro q new
    by_cases here : q = p
    · rw [here, (others p different).1] at new
      rw [new] at live
      exact absurd live not_live_embryo
    · rw [update_of_ne here]
      by_cases isNew : q = np
      · rw [isNew, out]
      · rw [(others q isNew).1] at new
        exact promises.idle q new
  · rw [update_self]
    exact own
  · intro r fills
    rw [update_self] at fills
    cases still.resolve_left (by rw [fills]; exact some_ne_none r) ▸ fills
    exact unique
  · intro q here live'
    rw [update_of_ne here]
    by_cases isNew : q = np
    · exact .inl (isNew ▸ out)
    · rw [(others q isNew).1] at live'
      refine .inr ⟨rfl, live', (others q isNew).2.1, fun r fills => ?_⟩
      have other : r ≠ np := fun equal => unique q here live' (equal ▸ fills)
      exact ⟨(others r other).1, (others r other).2.2, fun m i => lists m i r other⟩

end

/-- A step in which live processes go from state to state. -/
theorem Good.moves (good : Good s) (currents : Currents t cpus) (memory : SameMemory s.k t)
    (ties : ∀ q, SameTies (s.k.proc q) (t.proc q))
    (moves : ∀ q, Moves (s.k.proc q).state (t.proc q).state) :
    Good { s with k := t, cpus := cpus } ∧ NoRevival s.k t :=
  ⟨⟨good.consistent.moves ties memory moves, currents, good.promises.moves ties moves⟩,
    fun q dead => .inl ((moves q).used.2.2.mpr dead)⟩

theorem Good.leave {new : Proc} (good : Good s) (runs : s.cpus c = some p)
    (ties : SameTies (s.k.proc p) new) (live : Live new.state) :
    Good (s.leave c (s.k.setProc p new)) ∧ NoRevival s.k (s.k.setProc p new) := by
  apply good.moves
  · apply good.currents.leave
    intro c' q other runs'
    have different : q ≠ p := by
      intro equal
      rw [equal] at runs'
      exact other (good.currents.single c' c p runs' runs)
    rw [setProc_of_ne different]
    exact good.currents.running c' q runs'
  · exact setProc_memory _ _ _
  · exact fun q => SameTies.set (SameTies.refl _) ties
  · exact setProc_moves (.inr ⟨good.currents.live runs, live⟩)

section

variable (good : Good s)
include good

theorem Good.goOn (runs : s.cpus c = some p) (filling : slot (s.pending p) = some np)
    (consistent : Consistent [] t) (still : slot stage = none ∨ slot stage = some np)
    (others : ∀ q, q ≠ np → (t.proc q).state = (s.k.proc q).state ∧
      (t.proc q).master = (s.k.proc q).master ∧ (t.proc q).kstack = (s.k.proc q).kstack)
    (lists : ∀ m i q, q ≠ np →
    ((t.proc m).workerthread i = some q ↔ (s.k.proc m).workerthread i = some q)) (own :
    Holds t p stage) : Good (s.goOn p t stage) ∧ NoRevival s.k t := by
  have live := good.currents.live runs
  have embryo := (good.promises.holds p live).embryo filling
  have same : ∀ q, (s.k.proc q).state ≠ .embryo → (t.proc q).state = (s.k.proc q).state := by
    intro q settled
    apply (others q _).1
    intro equal
    rw [equal] at settled
    exact settled embryo
  constructor
  · refine ⟨consistent, ?_, good.promises.goOn live filling still others lists own⟩
    apply good.currents.keep
    intro q running
    exact (same q (by rw [running]; exact ProcState.noConfusion)).trans running
  · intro q zombie
    exact .inl ((same q (by rw [zombie]; exact ProcState.noConfusion)).trans zombie)

theorem good_claim (taken : step s (.claim c) = some next) : Good next ∧ NoRevival s.k next.k := by
  obtain ⟨p, runs, taken⟩ := bind_eq_some_iff.mp taken
  obtain ⟨out, taken⟩ := ite_none_right_eq_some.mp taken
  split at taken
  · cases taken
    exact ⟨good, fun q dead => .inl dead⟩
  rename_i np found
  cases taken
  have unused := (unusedSlot_spec found).2
  have live := good.currents.live runs
  have unlisted := good.consistent.grouped.unlisted_of_unused unused
  have others : ∀ q, q ≠ np → (s.k.claim np).proc q = s.k.proc q := by
    intro q other
    rw [claim_proc, update_of_ne other]
  have own : ((s.k.claim np).proc np).state = .embryo ∧
      ((s.k.claim np).proc np).workerthread = (s.k.proc np).workerthread := by
    rw [claim_proc, update_self]
    exact ⟨rfl, rfl⟩
  have lists : ∀ m, ((s.k.claim np).proc m).workerthread = (s.k.proc m).workerthread := by
    intro m
    by_cases isNew : m = np
    · rw [isNew, own.2]
    · rw [others m isNew]
  have old : ∀ q, Live (s.k.proc q).state → q ≠ np := by
    intro q live equal
    rw [equal, unused] at live
    exact not_live_unused live
  have same : ∀ q, (s.k.proc q).state ≠ .unused →
      ((s.k.claim np).proc q).state = (s.k.proc q).state := by
    intro q used
    rw [others q]
    intro equal
    rw [equal] at used
    exact used unused
  have alive : ∀ q, Live ((s.k.claim np).proc q).state → Live (s.k.proc q).state := by
    intro q live
    by_cases isNew : q = np
    · rw [isNew, own.1] at live
      exact absurd live not_live_embryo
    · rw [others q isNew] at live
      exact live
  refine ⟨⟨consistent_claim good.consistent unused, ?_, ?_⟩, ?_⟩
  · apply good.currents.keep
    intro q running
    exact (same q (by rw [running]; exact ProcState.noConfusion)).trans running
  · -- no live process fills the slot that was unused
    have fills : ∀ q, Live (s.k.proc q).state → slot (s.pending q) ≠ some np := by
      intro q live filling
      have embryo := (good.promises.holds q live).embryo filling
      rw [unused] at embryo
      cases embryo
    refine good.promises.set (p := p) (fun q embryo => ?_) ?_ ?_ fun q here live' => ?_
    · show update (update s.pending np .out) p (.claimed np) q = .out
      by_cases isNew : q = np
      · rw [isNew, update_of_ne (old p live).symm, update_self]
      rw [others q isNew] at embryo
      have other : q ≠ p := by
        intro equal
        rw [← equal, embryo] at live
        exact not_live_embryo live
      rw [update_of_ne other, update_of_ne isNew]
      exact good.promises.idle q embryo
    · show Holds (s.k.claim np) p (update (update s.pending np .out) p (.claimed np) p)
      rw [update_self]
      refine ⟨own.1, fun m i => ?_⟩
      rw [lists m]
      exact unlisted m i
    · intro r filling q _ before
      change slot (update (update s.pending np .out) p (.claimed np) p) = some r at filling
      rw [update_self] at filling
      cases filling
      exact fills q before
    · have before := alive q live'
      refine .inr ⟨?_, before, by rw [others q (old q before)], fun r filling => ?_⟩
      · show update (update s.pending np .out) p (.claimed np) q = s.pending q
        rw [update_of_ne here, update_of_ne (old q before)]
      · have other : r ≠ np := fun equal => fills q before (equal ▸ filling)
        exact ⟨by rw [others r other], by rw [others r other], fun m i => by rw [lists m]⟩
  · intro q zombie
    exact .inl ((same q (by rw [zombie]; exact ProcState.noConfusion)).trans zombie)

/-- Only the slot that is filled changes, and its list does not. -/
theorem Good.goOn_slot {new : Proc} (runs : s.cpus c = some p)
    (filling : slot (s.pending p) = some np) (consistent : Consistent [] t)
    (proc : t.proc = update s.k.proc np new) (lists : new.workerthread = (s.k.proc np).workerthread)
    (still : slot stage = none ∨ slot stage = some np) (own : Holds t p stage) :
    Good (s.goOn p t stage) ∧ NoRevival s.k t := by
  apply good.goOn runs filling consistent still
  · intro q other
    rw [proc, update_of_ne other]
    exact ⟨rfl, rfl, rfl⟩
  · intro m i q _
    rw [proc, Update.same Proc.workerthread lists]
  · exact own

theorem good_allocproc (taken : step s (.allocproc c) = some next) : Good next ∧
    NoRevival s.k next.k := by
  obtain ⟨p, runs, taken⟩ := bind_eq_some_iff.mp taken
  split at taken
  · rename_i np stage
    have filling : slot (s.pending p) = some np := by rw [stage]; rfl
    have holds := good.promises.holds p (good.currents.live runs)
    rw [stage] at holds
    obtain ⟨embryo, unlisted⟩ := holds
    split at taken
    · rename_i t ran
      cases taken
      have consistent := consistent_allocprocRest good.consistent embryo unlisted ran
      obtain ⟨m, frame, _, _, level, fqtick, isstride, proc⟩ := allocprocRest_eq_true ran
      apply good.goOn_slot runs filling consistent proc rfl (.inr rfl)
      refine ⟨?_, ?_, ?_⟩
      · rw [proc, update_self]
        exact embryo
      · intro m i
        rw [proc, Update.same Proc.workerthread (by rfl)]
        exact unlisted m i
      · rw [proc, update_self]
        exact some_ne_none frame
    · rename_i t ran
      cases taken
      have consistent := consistent_allocprocRest good.consistent embryo unlisted ran
      have proc := congrArg Kernel.proc (allocStack_false (allocprocRest_false ran)).1
      exact good.goOn_slot runs filling consistent proc rfl (.inl rfl) trivial
  · cases taken

theorem good_fork (careful : Careful s (.fork c)) (taken : step s (.fork c) = some next) :
    Good next ∧ NoRevival s.k next.k := by
  obtain ⟨p, runs, taken⟩ := bind_eq_some_iff.mp taken
  split at taken
  · rename_i np stage
    have filling : slot (s.pending p) = some np := by rw [stage]; rfl
    have root : (s.k.proc np).master = none := careful p runs np filling
    have holds := good.promises.holds p (good.currents.live runs)
    rw [stage] at holds
    obtain ⟨embryo, unlisted, stack⟩ := holds
    obtain ⟨⟨t, made⟩, ran, same⟩ := map_eq_some_iff.mp taken
    rw [toOption_eq_some] at ran
    cases same
    cases made with
    | none =>
      have consistent := consistent_forkRest_none good.consistent embryo unlisted ran
      have proc := (forkRest_none ran).2.1
      exact good.goOn_slot runs filling consistent proc rfl (.inl rfl) trivial
    | some child =>
      have consistent :=
        consistent_forkRest_some good.consistent embryo unlisted root stack ran
      obtain ⟨_, _, d, proc⟩ := forkRest_some ran
      exact good.goOn_slot runs filling consistent proc rfl (.inl rfl) trivial
  · cases taken

theorem good_allocthread (taken : step s (.allocthread c) = some next) :
    Good next ∧ NoRevival s.k next.k := by
  obtain ⟨p, runs, taken⟩ := bind_eq_some_iff.mp taken
  split at taken
  · rename_i np stage
    have filling : slot (s.pending p) = some np := by rw [stage]; rfl
    have live := good.currents.live runs
    have holds := good.promises.holds p live
    rw [stage] at holds
    obtain ⟨embryo, unlisted⟩ := holds
    obtain ⟨⟨t, done⟩, ran, same⟩ := map_eq_some_iff.mp taken
    rw [toOption_eq_some] at ran
    cases same
    obtain ⟨settled, root⟩ := good.consistent.grouped.masterOf live.settled
    have alive := good.consistent.grouped.masterOf_live live
    have consistent :=
      consistent_allocthreadRest good.consistent embryo unlisted root settled alive ran
    cases done with
    | false =>
      have proc := congrArg Kernel.proc (allocStack_false (allocthreadRest_false ran)).1
      exact good.goOn_slot runs filling consistent proc rfl (.inl rfl) trivial
    | true =>
      have different : np ≠ s.k.masterOf p := by
        intro equal
        rw [equal] at embryo
        exact settled.2 embryo
      obtain ⟨m, frame, i, _, _, free, result⟩ := allocthreadRest_eq_true ran different
      have proc : t.proc = update (update s.k.proc (s.k.masterOf p)
          (enlist (s.k.proc (s.k.masterOf p)) i np)) np
          (recruit (s.k.proc np) (s.k.proc (s.k.masterOf p)) frame (s.k.masterOf p) i) := by
        rw [result]
        rfl
      have other : p ≠ np := by
        intro equal
        rw [equal, embryo] at live
        exact not_live_embryo live
      have others : ∀ q, q ≠ np → (t.proc q).state = (s.k.proc q).state ∧
          (t.proc q).master = (s.k.proc q).master ∧ (t.proc q).kstack = (s.k.proc q).kstack := by
        intro q other
        rw [proc, update_of_ne other, update_apply]
        split
        · rename_i here
          rw [here]
          exact ⟨rfl, rfl, rfl⟩
        · exact ⟨rfl, rfl, rfl⟩
      apply good.goOn runs filling consistent (.inr rfl) others
      · intro m j q isOld
        rw [proc]
        by_cases isNew : m = np
        · rw [isNew, update_self]
          rfl
        rw [update_of_ne isNew, update_apply]
        split
        · rename_i here
          show update (s.k.proc (s.k.masterOf p)).workerthread i (some np) j = some q ↔ _
          rw [update_apply, here]
          split
          · rename_i place
            rw [place, free]
            apply iff_of_false
            · intro equal
              exact isOld (Option.some.inj equal).symm
            · intro equal
              cases equal
          · rfl
        · rfl
      · refine ⟨?_, ?_, i, ?_⟩
        · rw [proc, update_self]
          exact embryo
        · unfold Kernel.masterOf
          rw [(others p other).2.1]
        · rw [proc, update_of_ne different.symm, update_self]
          exact update_self _ _ _
  · cases taken

theorem good_threadCreate {arg : Nat} (taken : step s (.threadCreate c arg) = some next) :
    Good next ∧ NoRevival s.k next.k := by
  obtain ⟨p, runs, taken⟩ := bind_eq_some_iff.mp taken
  split at taken
  · rename_i master np stage
    have filling : slot (s.pending p) = some np := by rw [stage]; rfl
    have holds := good.promises.holds p (good.currents.live runs)
    rw [stage] at holds
    obtain ⟨embryo, isMaster, i, listed⟩ := holds
    obtain ⟨⟨t, made⟩, ran, same⟩ := map_eq_some_iff.mp taken
    rw [toOption_eq_some] at ran
    cases same
    have consistent := consistent_threadRest good.consistent embryo listed ran
    have different : np ≠ master := good.consistent.grouped.ne_master listed
    obtain ⟨u, done, mem, worked, _, cases⟩ := threadRest_eq ran
    have same := fun q => (allocusrstack_resized worked different q).ties
    have ties : ∀ q, SameTies (u.proc q) (t.proc q) ∧
        (q ≠ np → (t.proc q).state = (u.proc q).state) := by
      intro q
      rcases cases with ⟨_, result⟩ | ⟨_, _, result⟩
      · rw [result]
        exact ⟨SameTies.refl _, fun _ => rfl⟩
      rw [result]
      constructor
      · exact SameTies.set (SameTies.refl _) ⟨rfl, rfl, rfl, rfl, rfl⟩
      · intro other
        rw [setProc_of_ne other]
        rfl
    have all : ∀ q, SameTies (s.k.proc q) (t.proc q) := fun q => (same q).1.trans (ties q).1
    apply good.goOn runs filling consistent (.inl rfl)
    · intro q other
      exact ⟨((ties q).2 other).trans (same q).2, (all q).master, (all q).kstack⟩
    · intro m j q _
      rw [(all m).workerthread]
    · trivial
  · cases taken

/-- Some processes become zombies, none of them on another CPU, and the process on `c` leaves. -/
theorem Good.ends {gone : Nat → Prop} {head : Nat} (ends : Ended gone head s.k t)
    (absent : ∀ c' q, c' ≠ c → s.cpus c' = some q → ¬ gone q)
    (slots : ∀ q np, Live (s.k.proc q).state → ¬ gone q → slot (s.pending q) = some np →
      ¬ gone np) :
    Good (s.leave c t) ∧ NoRevival s.k t := by
  refine ⟨⟨good.consistent.ends ends, ?_, ?_⟩, ?_⟩
  · apply good.currents.leave
    intro c' q other runs
    have before := good.currents.running c' q runs
    exact ((ends.others q (absent c' q other runs)).running before).trans before
  · apply good.promises.keep
    · exact fun q live => (ends.live live).2
    · exact fun q => ends.embryo
    · exact fun q _ => (ends.ties q).master
    · intro q np live filling
      obtain ⟨stays, before⟩ := ends.live live
      have embryo := (good.promises.holds q before).embryo filling
      refine ⟨?_, (ends.ties np).kstack, fun m i => ?_⟩
      · exact (ends.others np (slots q np before stays filling)).of_awake
          (embryo ▸ ProcState.noConfusion)
      · show (t.proc m).workerthread i = some np ↔ _
        rw [(ends.ties m).workerthread]
  · intro q zombie
    by_cases leaves : gone q
    · exact .inl (ends.dead q leaves)
    · exact .inl (((ends.others q leaves).of_awake (zombie ▸ ProcState.noConfusion)).trans zombie)

/-- A slot that a group lists is filled by one of its members. -/
theorem Good.filler {i master : Nat} (live : Live (s.k.proc q).state)
    (filling : slot (s.pending q) = some np) (listed : (s.k.proc master).workerthread i = some np) :
    s.k.masterOf q = master := by
  have holds := good.promises.holds q live
  cases stage : s.pending q with
  | out =>
    rw [stage] at filling
    cases filling
  | claimed c =>
    rw [stage] at filling holds
    cases filling
    exact absurd listed (holds.2 _ i)
  | forking c =>
    rw [stage] at filling holds
    cases filling
    exact absurd listed (holds.2.1 _ i)
  | threading m c =>
    rw [stage] at filling holds
    cases filling
    obtain ⟨_, isMaster, j, listed'⟩ := holds
    have link := (good.consistent.grouped.list _ i np listed).2.2.1
    rw [(good.consistent.grouped.list _ j np listed').2.2.1] at link
    rw [← isMaster]
    exact Option.some.inj link

theorem good_exit (runs : s.cpus c = some p) (alone : s.Alone c) (ran : exit s.k p = .ok t) :
    Good (s.leave c t) ∧ NoRevival s.k t := by
  have live := good.currents.live runs
  have grouped := good.consistent.grouped
  obtain ⟨root, top⟩ := grouped.masterOf live.settled
  apply good.ends (ended_exit grouped live.settled ran)
  · intro c' q other runs' member
    exact alone p runs c' other q runs' (grouped.masterOf_member top member)
  rintro q np live' outside filling (isMaster | isWorker)
  · have embryo := (good.promises.holds q live').embryo filling
    rw [isMaster] at embryo
    exact root.2 embryo
  · obtain ⟨i, listed⟩ := grouped.mem_workers.mp isWorker
    have same := good.filler live' filling listed
    apply outside
    rw [← same]
    exact grouped.member live'.settled

theorem good_threadExit {retval : Nat} (careful : Careful s (.threadExit c retval))
    (taken : step s (.threadExit c retval) = some next) : Good next ∧ NoRevival s.k next.k := by
  obtain ⟨p, runs, taken⟩ := bind_eq_some_iff.mp taken
  obtain ⟨_, taken⟩ := ite_none_right_eq_some.mp taken
  obtain ⟨t, ran, same⟩ := map_eq_some_iff.mp taken
  rw [toOption_eq_some] at ran
  cases same
  have live := good.currents.live runs
  obtain ⟨link, ran⟩ | ⟨master, link⟩ := thread_exit_cases ran
  · exact good_exit good runs (careful p runs link) ran
  apply good.ends (ended_thread_exit good.consistent.grouped live link ran)
  · intro c' q other runs' equal
    rw [equal] at runs'
    exact other (good.currents.single c' c p runs' runs)
  · intro q np live' _ filling equal
    have embryo := (good.promises.holds q live').embryo filling
    rw [equal] at embryo
    rw [embryo] at live
    exact not_live_embryo live

theorem good_wait (taken : step s (.wait c) = some next) : Good next ∧ NoRevival s.k next.k := by
  obtain ⟨p, runs, taken⟩ := bind_eq_some_iff.mp taken
  obtain ⟨_, taken⟩ := ite_none_right_eq_some.mp taken
  obtain ⟨⟨t, progress⟩, ran, same⟩ := map_eq_some_iff.mp taken
  rw [toOption_eq_some] at ran
  have live := good.currents.live runs
  have grouped := good.consistent.grouped
  rcases wait_eq ran with ⟨isNone, result⟩ | ⟨sleeps, result⟩ |
    ⟨child, _, _, _, _, _, found, _, _, _, _, _, isPid, _⟩
  · rw [isNone] at same
    cases same
    rw [result]
    exact ⟨good, fun q dead => .inl dead⟩
  · rw [sleeps] at same
    cases same
    rw [result]
    apply good.leave runs
    · exact ⟨rfl, rfl, rfl, rfl, rfl⟩
    · exact .inr (.inr rfl)
  rw [isPid] at same
  cases same
  obtain ⟨_, _, root, zombie⟩ := deadChild_spec found
  obtain ⟨gone, others⟩ := wait_found grouped found ran
  have dead : ∀ q, q = child ∨ q ∈ s.k.workers child → (s.k.proc q).state = .zombie := by
    rintro q (isChild | worker)
    · rw [isChild, zombie]
    · obtain ⟨i, listed⟩ := grouped.mem_workers.mp worker
      exact grouped.dead child i q listed zombie
  have stays : ∀ q, (s.k.proc q).state ≠ .zombie → t.proc q = s.k.proc q :=
    fun q alive => others q fun leaves => alive (dead q leaves)
  have remains : ∀ q, (t.proc q).state ≠ .unused → t.proc q = s.k.proc q :=
    fun q used => others q fun leaves => used (gone q leaves).1
  refine ⟨⟨consistent_wait good.consistent live ran, ?_, ?_⟩, ?_⟩
  · apply good.currents.keep
    intro q running
    show (t.proc q).state = .running
    rw [stays q, running]
    rw [running]
    exact ProcState.noConfusion
  · apply good.promises.keep
    · intro q live'
      rw [← remains q live'.settled.1]
      exact live'
    · intro q embryo
      rw [← remains q, embryo]
      intro unused
      have both := embryo.symm.trans unused
      cases both
    · intro q live'
      rw [remains q live'.settled.1]
    intro q np live' filling
    have before : Live (s.k.proc q).state := by
      rw [← remains q live'.settled.1]
      exact live'
    have embryo := (good.promises.holds q before).embryo filling
    have same : t.proc np = s.k.proc np := by
      apply stays
      rw [embryo]
      exact ProcState.noConfusion
    refine ⟨by rw [same], by rw [same], fun m i => ?_⟩
    show (t.proc m).workerthread i = some np ↔ _
    by_cases leaves : m = child ∨ m ∈ s.k.workers child
    · rw [(gone m leaves).2.2 i]
      apply iff_of_false
      · intro equal
        cases equal
      · -- the child's own list holds the dead only, and its workers list nobody
        intro listed
        have new := grouped.dead m i np listed (dead m leaves)
        rw [embryo] at new
        cases new
    · rw [others m leaves]
  · intro q dead'
    by_cases leaves : q = child ∨ q ∈ s.k.workers child
    · exact .inr (gone q leaves).1
    · left
      show (t.proc q).state = .zombie
      rw [others q leaves, dead']

theorem good_step {event : Event n} (careful : Careful s event) (taken : step s event = some next) :
    Good next ∧ NoRevival s.k next.k := by
  cases event with
  | claim c => exact good_claim good taken
  | allocproc c => exact good_allocproc good taken
  | fork c => exact good_fork good careful taken
  | allocthread c => exact good_allocthread good taken
  | threadCreate c arg => exact good_threadCreate good taken
  | threadExit c retval => exact good_threadExit good careful taken
  | exit c =>
    obtain ⟨p, runs, taken⟩ := bind_eq_some_iff.mp taken
    obtain ⟨_, taken⟩ := ite_none_right_eq_some.mp taken
    obtain ⟨t, ran, same⟩ := map_eq_some_iff.mp taken
    rw [toOption_eq_some] at ran
    cases same
    exact good_exit good runs careful ran
  | wait c => exact good_wait good taken
  | kill pid =>
    cases taken
    apply good.moves
    · apply good.currents.keep
      exact fun q running => ((kill_steady q).2.running running).trans running
    · exact (kill_only s.k pid).memory
    · exact kill_ties s.k pid
    · exact fun q => moves_of_woken (kill_steady q).2
  | dispatch c p =>
    obtain ⟨⟨_, ready⟩, taken⟩ := ite_none_right_eq_some.mp taken
    cases taken
    apply good.moves
    · exact good.currents.dispatch ready rfl
    · exact setProc_memory _ _ _
    · exact fun q => SameTies.set (SameTies.refl _) ⟨rfl, rfl, rfl, rfl, rfl⟩
    · apply setProc_moves
      rw [ready]
      exact .inr ⟨.inl rfl, .inr (.inl rfl)⟩
  | yield c =>
    obtain ⟨p, runs, same⟩ := map_eq_some_iff.mp taken
    cases same
    apply good.leave runs
    · exact ⟨rfl, rfl, rfl, rfl, rfl⟩
    · exact .inl rfl
  | sleep c chan =>
    obtain ⟨p, runs, same⟩ := map_eq_some_iff.mp taken
    cases same
    apply good.leave runs
    · exact ⟨rfl, rfl, rfl, rfl, rfl⟩
    · exact .inr (.inr rfl)
  | wakeup chan =>
    cases taken
    apply good.moves
    · apply good.currents.keep
      exact fun q running => ((wakeup1_ties s.k chan q).2.running running).trans running
    · exact wakeup1_memory s.k chan
    · exact fun q => (wakeup1_ties s.k chan q).1
    · exact fun q => moves_of_woken (wakeup1_ties s.k chan q).2

/-- Nothing of a current process is reclaimed. -/
def Sys.Safe (s : Sys n) : Prop :=
  ∀ c p, s.cpus c = some p → (s.k.proc p).state ≠ .unused ∧
    (∃ frame, (s.k.proc p).kstack = some frame ∧ frame ∉ s.k.mem.freelist) ∧
    ∃ d dir, (s.k.proc p).pgdir = some d ∧ s.k.pgdirs d = some dir ∧ d ∉ s.k.mem.freelist

theorem Good.safe : s.Safe := by
  intro c p runs
  have settled := (good.currents.live runs).settled
  refine ⟨settled.1, ?_, ?_⟩
  · obtain ⟨frame, stack⟩ :=
      ne_none_iff_exists'.mp (good.consistent.spaces.stacked p (.inl settled))
    exact ⟨frame, stack, good.consistent.sound.apart (.kstack p) frame stack⟩
  · obtain ⟨d, dir, pgdir, present⟩ := good.consistent.spaces.rooted p (.inl settled)
    exact ⟨d, dir, pgdir, present, good.consistent.sound.not_free present⟩

end

/-- All CPUs are in the scheduler. -/
def Sys.start (n : Nat) (k : Kernel) : Sys n := ⟨k, fun _ => none, fun _ => .out⟩

theorem good_start {m : Vm.Mem} {code : Nat → UInt8} (nodup : m.freelist.Nodup)
    (booted : userinit (Kernel.boot m) code = .ok k) : Good (Sys.start n k) := by
  refine ⟨(consistent_userinit [] nodup booted).1, ⟨?_, ?_⟩, ⟨?_, ?_, ?_⟩⟩
  · intro c p runs
    cases runs
  · intro c c' p runs
    cases runs
  · exact fun _ _ => rfl
  · exact fun _ _ => trivial
  · intro p q np _ _ filling
    cases filling

/-- In a run from boot on any number of CPUs in which a group is ended only while no other CPU runs
one of its members, and `fork` fills no slot that names a master, nothing of a current process is
reclaimed, and no step brings a zombie back. -/
theorem current_not_reclaimed {m : Vm.Mem} {code : Nat → UInt8} {events : List (Event n)}
    (nodup : m.freelist.Nodup) (booted : userinit (Kernel.boot m) code = .ok k)
    (careful : Run.Steps step Careful (Sys.start n k) events) :
    Run.Steps step (fun s event => ∀ next, step s event = some next → NoRevival s.k next.k)
      (Sys.start n k) events ∧
    ∀ last, Run.exec step (Sys.start n k) events = some last → last.Safe := by
  have keeps : ∀ (s : Sys n) event next, Good s → Careful s event → step s event = some next →
      Good next := fun _ _ _ good careful taken => (good_step good careful taken).1
  constructor
  · apply Run.steps_of_invariant Good keeps _ (good_start nodup booted) careful
    intro s event good careful next taken
    exact (good_step good careful taken).2
  · intro last run
    exact (Run.exec_invariant Good keeps (good_start nodup booted) careful run).safe

instance (s : Sys n) (event : Event n) : Decidable (Careful s event) := by
  rcases event <;> dsimp only [Careful] <;> infer_instance

/-- Init forks on one CPU, and its child makes a thread on the other. -/
def groupRun : List (Event 2) :=
  [.dispatch 0 0, .claim 0, .allocproc 0, .fork 0, .dispatch 1 1, .claim 1, .allocthread 1,
    .threadCreate 1 0, .yield 0]

/-- The thread runs and exits, and init forks another child, which exits and is collected. -/
def carefulRun : List (Event 2) :=
  groupRun ++ [.dispatch 0 2, .threadExit 0 7, .dispatch 0 0, .claim 0, .allocproc 0, .fork 0,
    .yield 0, .dispatch 0 3, .exit 0, .dispatch 0 0, .wait 0]

theorem current_not_reclaimed_small : ∃ k last,
    userinit (Kernel.boot smallMem) (fun _ => 0) = .ok k ∧
    Run.Steps step Careful (Sys.start 2 k) carefulRun ∧
    Run.exec step (Sys.start 2 k) carefulRun = some last ∧
    Run.Steps step (fun s event => ∀ next, step s event = some next → NoRevival s.k next.k)
      (Sys.start 2 k) carefulRun ∧ last.Safe := by
  obtain ⟨k, last, booted, ends, careful⟩ := run_small step (Sys.start 2) carefulRun
    (fun k _ => Run.Steps step Careful (Sys.start 2 k) carefulRun) (by decide +kernel)
  have safe := current_not_reclaimed smallMem_nodup booted careful
  exact ⟨k, last, booted, careful, ends, safe.1, safe.2 last ends⟩

/-- The state after a run from boot on the small machine. -/
def afterBoot (events : List (Event 2)) : Option (Sys 2) :=
  bootSmall.bind fun k => Run.exec step (Sys.start 2 k) events

/-- The thread runs on CPU 0 while its master exits on CPU 1. -/
def exitRun : List (Event 2) := groupRun ++ [.dispatch 0 2, .exit 1]

/-- Init, on CPU 1, waits for the child: the thread that CPU 0 runs is UNUSED, its kernel stack and
its page directory are free. Without the `wait`, the thread yields and is RUNNABLE after it was a
ZOMBIE. -/
theorem exit_ends_current :
    (afterBoot exitRun).map (fun s => (s.cpus 0, (s.k.proc 2).state, (s.k.proc 2).kstack.isSome,
      (s.k.proc 2).pgdir.map fun d => (s.k.pgdirs d).isSome)) =
      some (some 2, .zombie, true, some true) ∧
    (afterBoot (exitRun ++ [.dispatch 1 0, .wait 1])).map (fun s => (s.cpus 0, (s.k.proc 2).state,
      (s.k.proc 2).kstack.isSome, (s.k.proc 2).pgdir.map fun d => (s.k.pgdirs d).isSome)) =
      some (some 2, .unused, false, some false) ∧
    (afterBoot (exitRun ++ [.yield 0])).map (fun s => (s.k.proc 2).state) = some .runnable := by
  decide +kernel

end Xv6.Process.Smp
