import Xv6.Process.Shares

/- What `set_cpu_share` does with any portion that a program passes. -/
namespace Xv6.Process.Sched

open Outcome Calls Dispatch Seats

variable {k t u : Kernel} {p : Nat} {portion : Int}

/-- A request by a process without threads and without a share, for at least one percent. The
portions can be added as `int`s, and if the new one fits, an entry is free. -/
structure Requests (k : Kernel) (p : Nat) (portion : Int) : Prop where
  lower : 1 ≤ portion
  sum : portion + activeShares k < 2 ^ 31
  master : (k.proc p).master = none
  isthread : (k.proc p).isthread = false
  isstride : (k.proc p).isstride = false
  free : activeShares k + portion ≤ 80 → ∃ j < NPROC, j ≠ 0 ∧ (k.strides j).stride = 0

instance (k : Kernel) (p : Nat) (portion : Int) : Decidable (Requests k p portion) :=
  decidable_of_iff (1 ≤ portion ∧ portion + activeShares k < 2 ^ 31 ∧ (k.proc p).master = none ∧
    (k.proc p).isthread = false ∧ (k.proc p).isstride = false ∧
    (activeShares k + portion ≤ 80 → ∃ j < NPROC, j ≠ 0 ∧ (k.strides j).stride = 0))
    ⟨fun ⟨a, b, c, d, e, f⟩ => ⟨a, b, c, d, e, f⟩, fun ⟨a, b, c, d, e, f⟩ => ⟨a, b, c, d, e, f⟩⟩

theorem Requests.asks (requests : Requests k p portion) (upper : portion ≤ 100) :
    Asks k p portion :=
  ⟨requests.lower, upper, requests.master, requests.isthread, requests.isstride, requests.free⟩

/-- The steps of a run whose requests are as described. -/
def Portioned (m : Machine) : Event → Prop
  | .setCpuShare p portion => Requests m.k p portion
  | .call event => forks event = true → Room m.k
  | _ => True

instance (m : Machine) (event : Event) : Decidable (Portioned m event) := by
  rcases event <;> dsimp only [Portioned] <;> infer_instance

/-- More than all of the CPU is rejected. -/
theorem Requests.rejected (requests : Requests k p portion) (ledger : Ledger k)
    (more : portion > 100) :
    total k portion > 80 := by
  have least := ledger.active_nonneg
  rw [total_eq ledger.nonneg (by omega) requests.sum]
  omega

/-- Entry 0 keeps a share. -/
def Solvent (k : Kernel) : Prop := 20 ≤ (k.strides 0).share ∧ (k.strides 0).share ≤ 100

theorem Ledger.entry_le (ledger : Ledger k) {j : Nat} (inside : j < NPROC) (other : j ≠ 0) :
    (k.strides 0).share + (k.strides j).share ≤ 100 := by
  have most := ledger.share_le inside other
  have limit := ledger.limit
  omega

theorem Shared.solvent {j : Nat} (shared : Shared k t p portion j) (ledger : Ledger k)
    (lower : 1 ≤ portion) : Solvent t := by
  have least := ledger.active_nonneg
  have fits := shared.fits
  have first := shared.first.1
  exact ⟨by omega, by omega⟩

theorem solvent_turn {m : Machine} {event : Event} (ready : Ready m.k) (orderly : Orderly m.k)
    (solvent : Solvent m.k) (allowed : Shareable m event) (turn : Turn m t event) : Solvent t := by
  have ledger := orderly.ledger
  cases turn_books ready turn with
  | same books =>
    unfold Solvent
    rw [(books 0).2]
    exact solvent
  | back h stride holder divided strides =>
    have other := orderly.holder h holder
    have inside := ledger.mystride h
    have first := ((ledger.gaveBack inside divided strides).first other).1
    have most := ledger.entry_le inside other
    have least := ledger.nonneg (m.k.proc h).mystride
    have enough := solvent.1
    exact ⟨by omega, by omega⟩
  | granted p portion j isCall granted =>
    rw [isCall] at allowed
    exact (ledger.shared allowed.lower allowed.upper granted).solvent ledger allowed.lower

/-- The division in `exit`, which has stopped other processes by then. -/
theorem unschedule_divides {h : Nat} (orderly : Orderly k) (solvent : Solvent k)
    (quiet : Seats.Quiet k u) :
    unschedule u h ≠ .error .divideError := by
  have isstride : (u.proc h).isstride = (k.proc h).isstride := congrArg (·.2.1) (quiet.seat h)
  have mystride : (u.proc h).mystride = (k.proc h).mystride := congrArg (·.2.2.1) (quiet.seat h)
  unfold unschedule
  rw [isstride, mystride, quiet.strides]
  split
  · rename_i holder
    have other := orderly.holder h holder
    have inside := orderly.ledger.mystride h
    have most := orderly.ledger.entry_le inside other
    have least := orderly.ledger.nonneg (k.proc h).mystride
    have enough := solvent.1
    dsimp only
    rw [int_eq (by omega) (by omega), divide, if_neg (by omega)]
    exact fun failed => nomatch failed
  · intro failed
    unfold pop_MLFQ at failed
    dsimp only at failed
    split at failed
    · split at failed
      · cases failed
      · cases failed
    · cases failed

theorem exit_divides (linked : Linked k) (orderly : Orderly k) (solvent : Solvent k) (p : Nat) :
    exit k p ≠ .error .divideError := by
  intro failed
  unfold exit at failed
  dsimp only at failed
  split at failed
  · cases failed
  have adopted := orphan_quiet k ((k.proc (k.masterOf p)).parent.map Chan.proc) (k.masterOf p)
  have ended := adopted.trans (endWorkers_quiet (linked.quiet adopted) (k.masterOf p))
  cases result : unschedule (endWorkers (orphan k ((k.proc (k.masterOf p)).parent.map Chan.proc)
      (k.masterOf p)) (k.masterOf p)) (k.masterOf p) with
  | error stop =>
    unfold orphan at result
    rw [result] at failed
    cases failed
    exact unschedule_divides orderly solvent ended result
  | ok v =>
    unfold orphan at result
    rw [result] at failed
    change (if _ then _ else _) = _ at failed
    split at failed
    · cases failed
    · cases failed

/-- The entry of an accepted request. -/
structure Installed (t : Kernel) (p j : Nat) : Prop where
  mystride : (t.proc p).mystride = j
  owner : (t.strides j).proc = some p
  share : 0 < (t.strides j).share
  stride : 0 < (t.strides j).stride

theorem Requests.ends (requests : Requests k p portion) (orderly : Orderly k) :
    ∃ t done, set_cpu_share k p portion = .ok (t, done) ∧ (done = false → t = k) ∧
      (done = true → (∃ j, Installed t p j) ∧ Solvent t) := by
  by_cases upper : portion ≤ 100
  · obtain ⟨t, done, ran, _, same⟩ := set_cpu_share_ends orderly (requests.asks upper)
    refine ⟨t, done, ran, same, fun isDone => ?_⟩
    subst isDone
    rcases set_cpu_share_eq ran with ⟨no, _⟩ | ⟨_, j, granted⟩
    · cases no
    have shared := orderly.ledger.shared requests.lower upper granted
    have lower := requests.lower
    refine ⟨⟨j, ?_, shared.own.2.2, ?_, ?_⟩, shared.solvent orderly.ledger lower⟩
    · obtain ⟨_, own⟩ := granted.own
      rw [own]
    · rw [shared.own.1]
      omega
    · rw [shared.own.2.1]
      have small : portion ≤ MAXTICKET := Int.le_trans upper (by decide)
      exact (stride_bounds (by omega) small).1
  · refine ⟨k, false, ?_, fun _ => rfl, fun no => (nomatch no)⟩
    rw [set_cpu_share_split, if_pos (requests.rejected orderly.ledger (by omega))]

/-- What holds in every state of a run. -/
structure Sane (k : Kernel) : Prop where
  ready : Ready k
  linked : Linked k
  orderly : Orderly k
  solvent : Solvent k

theorem sane_boot {mem : Vm.Mem} {code : Nat → UInt8}
    (booted : userinit (Kernel.boot mem) code = .ok k) :
    Sane k := by
  have fresh := fresh_userinit booted
  obtain ⟨ready, linked⟩ := run_ready booted (Run.exec_nil step _)
  obtain ⟨_, first⟩ := fresh.first
  refine ⟨ready, linked, orderly_boot fresh, ?_⟩
  unfold Solvent
  rw [first]
  exact (by decide : (20 : Int) ≤ 20 ∧ (20 : Int) ≤ 100)

theorem sane_step {m next : Machine} {event : Event} (sane : Sane m.k) (allowed : Portioned m event)
    (taken : step m event = some next) : Sane next.k := by
  have turn := step_turn sane.linked taken
  have kept : Shareable m event → Sane next.k := fun shareable =>
    ⟨ready_turn sane.ready turn, linked_turn sane.ready sane.linked turn,
      orderly_turn sane.ready sane.orderly shareable turn,
      solvent_turn sane.ready sane.orderly sane.solvent shareable turn⟩
  cases event with
  | call event => exact kept allowed
  | tick p => exact kept trivial
  | schedule p => exact kept trivial
  | setCpuShare p portion =>
    by_cases upper : portion ≤ 100
    · exact kept (Requests.asks allowed upper)
    have high := Requests.rejected allowed sane.orderly.ledger (by omega)
    cases turn with
    | rejected _ _ _ same =>
      rw [same]
      exact sane
    | granted _ _ j _ granted => exact absurd granted.fits (by omega)

/-- In every state of every run whose requests are as described: such a request returns, it is
rejected and changes nothing or installs an entry, and no `exit` divides by zero. -/
theorem portions_total (mem : Vm.Mem) (code : Nat → UInt8) (k : Kernel)
    (booted : userinit (Kernel.boot mem) code = .ok k) (events : List Event)
    (allowed : Run.Steps step Portioned (Machine.start k) events) (m : Machine)
    (run : Run.exec step (Machine.start k) events = some m) :
    (∀ p portion, Requests m.k p portion → ∃ t done, set_cpu_share m.k p portion = .ok (t, done) ∧
      (done = false → t = m.k) ∧
      (done = true → (∃ j, Installed t p j) ∧ 20 ≤ (t.strides 0).share ∧
        (t.strides 0).share ≤ 100)) ∧
    ∀ p, exit m.k p ≠ .error .divideError := by
  have sane : Sane m.k := Run.exec_invariant (fun m => Sane m.k)
    (fun m event next sane allowed taken => sane_step sane allowed taken) (sane_boot booted) allowed
      run
  exact ⟨fun p portion requests => requests.ends sane.orderly,
    fun p => exit_divides sane.linked sane.orderly sane.solvent p⟩

/-- init asks for more than there is, its child takes 80 percent and exits. -/
def askedTwice : List Event :=
  [.schedule 0, .call (.fork 0), .setCpuShare 0 1000, .call (.yield 0), .schedule 1,
      .setCpuShare 1 80,
    .call (.exit 1), .schedule 0]

theorem portions_total_small : ∃ k m, userinit (Kernel.boot smallMem) (fun _ => 0) = .ok k ∧
    Run.exec step (Machine.start k) askedTwice = some m ∧
    (∃ t done, set_cpu_share m.k 0 50 = .ok (t, done) ∧
      (done = true → (∃ j, Installed t 0 j) ∧ 20 ≤ (t.strides 0).share)) ∧
    exit m.k 0 ≠ .error .divideError := by
  obtain ⟨k, m, booted, ends, allowed, requests⟩ :=
    run_small step Machine.start askedTwice (fun k m =>
    Run.Steps step Portioned (Machine.start k) askedTwice ∧ Requests m.k 0 50) (by decide +kernel)
  obtain ⟨calls, exits⟩ := portions_total smallMem _ k booted _ allowed m ends
  obtain ⟨t, done, returned, _, accepted⟩ := calls 0 50 requests
  exact ⟨k, m, booted, ends,
      ⟨t, done, returned, fun isDone => ⟨(accepted isDone).1, (accepted isDone).2.1⟩⟩,
    exits 0⟩

/-- The first process asks for nothing. -/
theorem portion_zero_divides : ∃ k m, userinit (Kernel.boot smallMem) (fun _ => 0) = .ok k ∧
    Run.exec step (Machine.start k) [.schedule 0] = some m ∧ (m.k.proc 0).state = .running ∧
    set_cpu_share m.k 0 0 = .error .divideError := by
  obtain ⟨k, m, booted, ends, running, stops⟩ :=
    run_small step Machine.start [.schedule 0] (fun _ m =>
    (m.k.proc 0).state = .running ∧ (set_cpu_share m.k 0 0).map (fun _ => ()) = .error .divideError)
    (by decide +kernel)
  refine ⟨k, m, booted, ends, running, ?_⟩
  cases result : set_cpu_share m.k 0 0 with
  | error stop =>
    rw [result] at stops
    cases stops
    rfl
  | ok pair =>
    rw [result] at stops
    cases stops

end Xv6.Process.Sched
