import Xv6.Process.Model
import Xv6.Vm.Supply

/- What the functions of proc.c do to the process table and to the queues. -/
namespace Xv6.Process

open Function Outcome

variable {k t u : Kernel} {p q : Nat} {j w curproc np master : Nat}

/-- RUNNABLE, RUNNING or SLEEPING. -/
def Live (state : ProcState) : Prop := state = .runnable ∨ state = .running ∨ state = .sleeping
deriving Decidable

/-- The state is as before, or the process is woken up. -/
def Woken (before after : ProcState) : Prop := after = before ∨ before = .sleeping ∧
    after = .runnable

section

variable {before middle after : ProcState}

theorem Woken.trans (first : Woken before middle) (second : Woken middle after) :
    Woken before after := by
  rcases second with rfl | ⟨asleep, awake⟩
  · exact first
  · exact .inr ⟨first.elim (fun same => same.symm.trans asleep) And.left, awake⟩

variable (woken : Woken before after)
include woken

theorem Woken.of_awake (awake : before ≠ .sleeping) : after = before :=
  woken.resolve_right fun both => awake both.1

theorem Woken.of_stopped (stopped : after ≠ .runnable) : after = before :=
  woken.resolve_right fun both => stopped both.2

theorem Woken.running (running : before = .running) : after = before :=
  woken.of_awake (running ▸ ProcState.noConfusion)

/-- Being woken up changes neither whether a process lives nor whether its slot is in use. -/
theorem Woken.live : (Live after ↔ Live before) ∧ (after ≠ .unused → before ≠ .unused) := by
  rcases woken with rfl | ⟨rfl, rfl⟩
  · exact ⟨Iff.rfl, id⟩
  · decide

end

theorem not_live_zombie : ¬ Live .zombie := by decide

theorem not_live_unused : ¬ Live .unused := by decide

theorem not_live_embryo : ¬ Live .embryo := by decide

theorem unusedSlot_spec (found : k.unusedSlot = some p) : p < NPROC ∧
    (k.proc p).state = .unused := by
  obtain ⟨_, inside, good, _⟩ := Scan.first_eq_some found
  rw [beq_iff_eq] at good
  exact ⟨by omega, good⟩

theorem held_of_cleared {held : Nat → Option Nat} {i : Nat}
    (still : update held i none j = some w) :
    held j = some w := by
  rw [update_apply] at still
  split at still
  · cases still
  · exact still

/-- A process in use is in another slot than the one that is found unused. -/
theorem ne_unusedSlot (found : k.unusedSlot = some p) (used : (k.proc q).state ≠ .unused) :
    q ≠ p := by
  intro equal
  rw [equal] at used
  exact used (unusedSlot_spec found).2

theorem claim_proc (k : Kernel) (p : Nat) : (k.claim p).proc = update k.proc p
    { k.proc p with state := .embryo, pid := k.nextpid } := rfl

theorem allocStack_false (ran : k.allocStack p = (t, false)) :
    t = k.setProc p { k.proc p with kstack := none, state := .unused } ∧ k.mem.freelist = [] := by
  unfold Kernel.allocStack at ran
  split at ran
  · rename_i m empty
    cases ran
    obtain ⟨rfl, none⟩ := Vm.kalloc_none empty
    exact ⟨rfl, none⟩
  · cases ran

theorem allocStack_eq_true (ran : k.allocStack p = (t, true)) :
    ∃ m frame, Vm.kalloc k.mem = (m, some frame) ∧
      t = (k.setMem m).setProc p { k.proc p with kstack := some frame } := by
  unfold Kernel.allocStack at ran
  split at ran
  · cases ran
  · rename_i m frame taken
    cases ran
    exact ⟨m, frame, taken, rfl⟩

/-- `push_MLFQ` on the process. -/
def queued (p : Proc) (level : Nat) : Proc :=
  { p with level := level, fqtick := 0, mystride := 0, isstride := false }

/-- The process is put into the first free slot of the queue, if there is one. -/
theorem push_cases (k : Kernel) (p level : Nat) :
    (push_MLFQ k p level = (k, false) ∧ ∀ i < NPROC, (k.queues level).holdingproc i ≠ none) ∨
    ∃ i t, i < NPROC ∧ (k.queues level).holdingproc i = none ∧ push_MLFQ k p level = (t, true) ∧
      t.proc = update k.proc p (queued (k.proc p) level) ∧
      t.queues = update k.queues level { k.queues level with
        total := (k.queues level).total + 1
        holdingproc := update (k.queues level).holdingproc i (some p) } := by
  unfold push_MLFQ
  split
  · rename_i none
    left
    refine ⟨rfl, ?_⟩
    intro i inside
    have full := Scan.first_eq_none none i (Nat.zero_le _) (by omega)
    rw [Option.isNone_eq_false_iff, Option.isSome_iff_ne_none] at full
    exact full
  · rename_i i found
    right
    obtain ⟨_, inside, free, _⟩ := Scan.first_eq_some found
    rw [Option.isNone_iff_eq_none] at free
    exact ⟨i, _, by omega, free, rfl, rfl, rfl⟩

/-- The process is taken out of the first slot of its queue that holds it, if there is one. -/
theorem pop_cases {found : Bool} (ran : pop_MLFQ k p = .ok (t, found)) :
    (k.proc p).level < 3 ∧
    ((found = false ∧ t = k ∧ ∀ i < NPROC, (k.queues (k.proc p).level).holdingproc i ≠ some p) ∨
    ∃ i, found = true ∧ i < NPROC ∧ (k.queues (k.proc p).level).holdingproc i = some p ∧
      t.proc = update k.proc p { k.proc p with fqtick := 0 } ∧
      t.queues = update k.queues (k.proc p).level { k.queues (k.proc p).level with
        total := (k.queues (k.proc p).level).total - 1
        holdingproc := update (k.queues (k.proc p).level).holdingproc i none }) := by
  unfold pop_MLFQ at ran
  dsimp only at ran
  split at ran
  · rename_i small
    refine ⟨small, ?_⟩
    split at ran
    · rename_i none
      cases ran
      left
      refine ⟨rfl, rfl, ?_⟩
      intro i inside
      have other := Scan.first_eq_none none i (Nat.zero_le _) (by omega)
      rw [beq_eq_false_iff_ne] at other
      exact other
    · rename_i i place
      cases ran
      right
      obtain ⟨_, inside, here, _⟩ := Scan.first_eq_some place
      rw [beq_iff_eq] at here
      exact ⟨i, rfl, by omega, here, rfl, rfl⟩
  · cases ran

theorem allocprocRest_false (ran : allocprocRest k p = (t, false)) :
    k.allocStack p = (t, false) := by
  unfold allocprocRest at ran
  split at ran
  · rename_i u allocated
    cases ran
    exact allocated
  · cases ran

/-- The process is in the queue of level 0 if it has room. -/
theorem allocprocRest_true (ran : allocprocRest k p = (t, true)) :
    ∃ u frame, u.proc = update k.proc p { k.proc p with kstack := some frame } ∧
      u.queues = k.queues ∧ t.queues = (push_MLFQ u p 0).1.queues ∧
      t.proc = update (push_MLFQ u p 0).1.proc p
        { (push_MLFQ u p 0).1.proc p with mystride := 0 } := by
  unfold allocprocRest at ran
  split at ran
  · cases ran
  rename_i u allocated
  cases ran
  obtain ⟨m, frame, _, same⟩ := allocStack_eq_true allocated
  refine ⟨u, frame, ?_, ?_, rfl, rfl⟩
  all_goals
    rw [same]
    rfl

/-- What `allocproc` writes into the slot after it has claimed it. -/
theorem allocprocRest_slot (ran : allocprocRest k p = (t, true)) :
    ∃ frame level fqtick isstride, t.proc = update k.proc p { k.proc p with
      kstack := some frame, level := level, fqtick := fqtick, mystride := 0, isstride :=
        isstride } := by
  obtain ⟨u, frame, allocated, _, _, proc⟩ := allocprocRest_true ran
  rcases push_cases u p 0 with ⟨same, _⟩ | ⟨i, v, _, _, same, pushed, _⟩
  · rw [same, allocated] at proc
    simp only [update_self, update_idem] at proc
    exact ⟨frame, _, _, _, proc⟩
  · rw [same] at proc
    dsimp only at proc
    rw [pushed, allocated] at proc
    simp only [update_self, update_idem] at proc
    exact ⟨frame, _, _, _, proc⟩

theorem allocproc_some (ran : allocproc k = (t, some p)) :
    k.unusedSlot = some p ∧ allocprocRest (k.claim p) p = (t, true) := by
  unfold allocproc at ran
  split at ran
  · cases ran
  rename_i found
  split at ran
  · cases ran
  · rename_i allocated
    cases ran
    exact ⟨found, allocated⟩

theorem free_proc {frame : Option Nat} (ran : k.free frame = .ok t) :
    t.proc = k.proc ∧ t.queues = k.queues := by
  unfold Kernel.free at ran
  split at ran
  · cases ran
  · cases ran
    exact ⟨rfl, rfl⟩

theorem freevm_proc {d : Option Nat} (ran : k.freevm d = .ok t) : t.proc = k.proc ∧
    t.queues = k.queues := by
  unfold Kernel.freevm at ran
  split at ran
  · cases ran
  · obtain ⟨⟨_, _⟩, _, ran⟩ := bind_eq_ok.mp ran
    obtain ⟨_, _, ran⟩ := bind_eq_ok.mp ran
    cases ran
    exact ⟨rfl, rfl⟩

theorem forkRest_some {c : Nat} (ran : forkRest k curproc np = .ok (t, some c)) :
    c = np ∧ t.queues = k.queues ∧ ∃ d, t.proc = update k.proc np
      { k.proc np with
        pgdir := some d, sz := (k.proc curproc).sz, parent := some curproc, state :=
          .runnable } := by
  unfold forkRest at ran
  obtain ⟨⟨_, dir⟩, _, ran⟩ := bind_eq_ok.mp ran
  obtain ⟨⟨m, made⟩, _, ran⟩ := bind_eq_ok.mp ran
  cases made with
  | none =>
    dsimp only at ran
    obtain ⟨_, _, ran⟩ := bind_eq_ok.mp ran
    cases ran
  | some pair =>
    obtain ⟨d, new⟩ := pair
    cases ran
    exact ⟨rfl, rfl, d, rfl⟩

theorem forkRest_none (ran : forkRest k curproc np = .ok (t, none)) :
    t.queues = k.queues ∧ t.proc = update k.proc np
      { k.proc np with pgdir := none, kstack := none, state := .unused } ∧
    ∃ d dir m, k.dir (k.proc curproc).pgdir = .ok (d, dir) ∧
      Vm.copyuvm k.mem dir (k.proc curproc).sz = .ok (m, none) := by
  unfold forkRest at ran
  obtain ⟨⟨d, dir⟩, found, ran⟩ := bind_eq_ok.mp ran
  obtain ⟨⟨m, made⟩, copies, ran⟩ := bind_eq_ok.mp ran
  cases made with
  | none =>
    dsimp only at ran
    obtain ⟨v, freed, ran⟩ := bind_eq_ok.mp ran
    obtain ⟨proc, queues⟩ := free_proc freed
    cases ran
    refine ⟨queues, ?_, d, dir, m, found, copies⟩
    rw [setProc_proc, proc, setMem_proc]
  | some pair => cases ran

theorem allocthreadRest_false (ran : allocthreadRest k master p = .ok (t, false)) :
    k.allocStack p = (t, false) := by
  unfold allocthreadRest at ran
  split at ran
  · rename_i u allocated
    cases ran
    exact allocated
  · dsimp only at ran
    split at ran
    · cases ran
    · cases ran

/-- The master with a new worker. -/
def enlist (m : Proc) (i p : Nat) : Proc :=
  { m with
    isthread := true
    workerthread := update m.workerthread i (some p)
    threadcnt := m.threadcnt + 1 }

/-- What `allocthread` writes into the new slot. -/
def recruit (new m : Proc) (frame master i : Nat) : Proc :=
  { new with
    kstack := some frame, parent := m.parent, master := some master, pgdir := m.pgdir,
      isthread := true
    fqtick := m.fqtick, level := m.level, mystride := m.mystride, isstride := m.isstride, tindex :=
      i }

/-- `allocthread` fills the new slot and puts it into the list of the master. -/
theorem allocthreadRest_slot (ran : allocthreadRest k master p = .ok (t, true)) :
    t.queues = k.queues ∧ t.strides = k.strides ∧ ∃ frame i, ∀ q,
      let new := if q = p then recruit (k.proc q) (k.proc master) frame master i else k.proc q
      t.proc q = if q = master then enlist new i p else new := by
  unfold allocthreadRest at ran
  split at ran
  · cases ran
  rename_i u allocated
  obtain ⟨m, frame, _, same⟩ := allocStack_eq_true allocated
  subst same
  dsimp only at ran
  split at ran
  · cases ran
  rename_i i _
  cases ran
  refine ⟨rfl, rfl, frame, i, fun q => ?_⟩
  simp only [setProc_proc, setMem_proc]
  by_cases isNew : q = p
  · subst isNew
    by_cases equal : q = master
    · subst equal
      simp only [update_self, if_true]
      rfl
    · simp only [update_self, update_of_ne equal, update_of_ne (Ne.symm equal), equal,
        if_true, if_false]
      rfl
  · by_cases equal : q = master
    · subst equal
      simp only [update_self, update_of_ne isNew, isNew, if_true, if_false]
      rfl
    · simp only [update_of_ne equal, update_of_ne isNew, equal, isNew, if_false]

/-- Nobody else is put into a list. -/
theorem listed_of_allocthread (ran : allocthreadRest k master p = .ok (t, true))
    (listed : (t.proc q).workerthread j = some w) : (k.proc q).workerthread j = some w ∨ w = p := by
  obtain ⟨_, _, frame, i, slot⟩ := allocthreadRest_slot ran
  rw [slot q] at listed
  have before : ((if q = p then recruit (k.proc q) (k.proc master) frame master i
      else k.proc q).workerthread) = (k.proc q).workerthread := by
    split
    all_goals rfl
  split at listed
  · dsimp only [enlist] at listed
    rw [before, update_apply] at listed
    split at listed
    · cases listed
      exact .inr rfl
    · exact .inl listed
  · rw [before] at listed
    exact .inl listed

end Xv6.Process
