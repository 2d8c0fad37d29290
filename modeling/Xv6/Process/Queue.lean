import Xv6.Lib.Bins
import Xv6.Process.Others
import Xv6.Vm.Supply

/- The queues of the scheduler in runs of processes without threads. -/
namespace Xv6.Process.Queue

open Function Bins Outcome Vm Option

variable {new : Proc} {found yields : Bool}

inductive Event where
  | fork (p : Nat)
  | setCpuShare (p : Nat) (portion : Int)
  | tick (p : Nat)
  | exit (p : Nat)
  | wait (p : Nat)
  | kill (pid : Nat)
  | dispatch (p : Nat)
  | yield (p : Nat)
  | sleep (p : Nat) (chan : Option Chan)
  | wakeup (chan : Option Chan)
  | memory (m : Mem) (pgdirs : Nat → Option Pgdir) (sz : Nat → Nat) (pgdir : Nat → Option Nat)

/-- A call of process `p`, which is running. -/
def call (k : Kernel) (p : Nat) (outcome : Option Kernel) : Option Kernel :=
  if (k.proc p).state = .running then outcome else none

/-- `memory` stands for whatever else changes memory and address spaces. -/
def step (k : Kernel) : Event → Option Kernel
  | .fork p => call k p ((fork k p).toOption.map Prod.fst)
  | .setCpuShare p portion => call k p ((set_cpu_share k p portion).toOption.map Prod.fst)
  | .tick p => call k p ((tick_add_MLFQ k p).toOption.map Prod.fst)
  | .exit p => call k p (exit k p).toOption
  | .wait p => call k p ((wait k p).toOption.map Prod.fst)
  | .kill pid => some (kill k pid).1
  | .dispatch p =>
    if (k.proc p).state = .runnable then some (k.setProc p { k.proc p with state := .running })
    else none
  | .yield p => call k p (some (k.setProc p { k.proc p with state := .runnable }))
  | .sleep p chan =>
    call k p (some (k.setProc p { k.proc p with chan := chan, state := .sleeping }))
  | .wakeup chan => some (wakeup1 k chan)
  | .memory m pgdirs sz pgdir =>
    some { k with
      proc := fun p => { k.proc p with sz := sz p, pgdir := pgdir p }
      mem := m
      pgdirs := pgdirs }

/-- `fork` finds no slot, no page for the kernel stack, or enough pages for all of the child. -/
def Supplied (k : Kernel) (p : Nat) : Prop :=
  k.unusedSlot = none ∨ k.mem.freelist = [] ∨ 1 + copySupply (k.proc p).sz ≤ k.mem.freelist.length
deriving Decidable

def Careful (k : Kernel) : Event → Prop
  | .fork p => Supplied k p
  | _ => True

instance (k : Kernel) (event : Event) : Decidable (Careful k event) := by
  rcases event <;> dsimp only [Careful] <;> infer_instance

/-- The processes that belong into a queue. -/
def Member (proc : Nat → Proc) (p : Nat) : Prop := Live (proc p).state ∧ (proc p).isstride = false

def levels (proc : Nat → Proc) (p : Nat) : Nat := (proc p).level

def holders (k : Kernel) (level i : Nat) : Option Nat := (k.queues level).holdingproc i

/-- The process has no threads and is none. -/
structure Alone (p : Proc) : Prop where
  master : p.master = none
  isthread : p.isthread = false
  workers : ∀ i, p.workerthread i = none

/-- The invariant of runs. -/
structure Fair (k : Kernel) : Prop where
  placed : Placed 3 NPROC (Member k.proc) (levels k.proc) (holders k)
  inside : ∀ p, (k.proc p).state ≠ .unused → p < NPROC
  alone : ∀ p, Alone (k.proc p)

variable {k t u next : Kernel} {p q : Nat} {live : Nat → Prop}

theorem Member.used (member : Member k.proc p) : (k.proc p).state ≠ .unused := by
  intro unused
  have live := member.1
  rw [unused] at live
  exact not_live_unused live

theorem holders_congr (queues : t.queues = k.queues) : holders t = holders k := by
  unfold holders
  rw [queues]

/-- The queues are the same, and so are the members and their levels. -/
theorem Fair.table (fair : Fair k) (queues : t.queues = k.queues)
    (members : ∀ q, Member t.proc q ↔ Member k.proc q)
    (level : ∀ q, Member k.proc q → (t.proc q).level = (k.proc q).level)
    (inside : ∀ q, (t.proc q).state ≠ .unused → q < NPROC) (alone : ∀ q, Alone (t.proc q)) :
    Fair t := by
  constructor
  · rw [holders_congr queues]
    exact fair.placed.congr members level
  · exact inside
  · exact alone

theorem Fair.set (fair : Fair k) (live : Live new.state ↔ Live (k.proc p).state)
    (stride : new.isstride = (k.proc p).isstride) (level : new.level = (k.proc p).level)
    (used : new.state ≠ .unused → (k.proc p).state ≠ .unused) (alone : Alone new) :
    Fair (k.setProc p new) := by
  have own : ∀ {motive : Nat → Proc → Prop}, motive p new → (∀ q, q ≠ p → motive q (k.proc q)) →
      ∀ q, motive q ((k.setProc p new).proc q) :=
    fun here others => (forall_update_iff _ _).mpr ⟨here, others⟩
  apply fair.table (setProc_queues k p new)
  · apply own (motive := fun q now => Live now.state ∧ now.isstride = false ↔ Member k.proc q)
    · rw [live, stride]
      exact Iff.rfl
    · exact fun _ _ => Iff.rfl
  · apply own (motive := fun q now => Member k.proc q → now.level = (k.proc q).level)
    · exact fun _ => level
    · exact fun _ _ _ => rfl
  · apply own (motive := fun q now => now.state ≠ .unused → q < NPROC)
    · exact fun there => fair.inside p (used there)
    · exact fun q _ => fair.inside q
  · exact own alone fun q _ => fair.alone q

/-- Nothing happens but that processes are woken up. -/
theorem Fair.woken (fair : Fair k) (queues : t.queues = k.queues)
    (each : ∀ q, Woken (k.proc q).state (t.proc q).state ∧
      (t.proc q).isstride = (k.proc q).isstride ∧ (t.proc q).level = (k.proc q).level ∧
      Alone (t.proc q)) : Fair t := by
  apply fair.table queues
  · intro q
    unfold Member
    rw [(each q).1.live.1, (each q).2.1]
  · exact fun q _ => (each q).2.2.1
  · exact fun q used => fair.inside q ((each q).1.live.2 used)
  · exact fun q => (each q).2.2.2

theorem Fair.bystanders (fair : Fair k) (queues : t.queues = k.queues)
    (others : ∀ q, Bystander p (k.proc q) (t.proc q)) : Fair t := by
  refine fair.woken queues fun q => ?_
  obtain ⟨parent, state, same, _, states⟩ := others q
  rw [same]
  exact ⟨states, rfl, rfl, { fair.alone q with }⟩

section Queues

theorem pop_placed (placed : Placed 3 NPROC live (levels k.proc) (holders k))
    (ran : pop_MLFQ k p = .ok (t, found)) :
    Placed 3 NPROC (fun q => live q ∧ q ≠ p) (levels t.proc) (holders t) ∧
    (found = false → t = k) ∧ (found = true → live p) ∧
    ∃ fqtick, t.proc = update k.proc p { k.proc p with fqtick := fqtick } := by
  obtain ⟨low, cases⟩ := pop_cases ran
  rcases cases with ⟨absent, same, missing⟩ | ⟨i, found, inside, here, proc, queues⟩
  · subst same
    have dead : ¬ live p := placed.absent missing
    refine ⟨?_, fun _ => rfl, fun given => Bool.noConfusion (absent.symm.trans given),
      (t.proc p).fqtick,
      (update_eq_self p t.proc).symm⟩
    apply placed.congr
    · intro q
      constructor
      · exact And.left
      · intro lives
        refine ⟨lives, ?_⟩
        intro equal
        rw [equal] at lives
        exact dead lives
    · exact fun _ _ => rfl
  · refine ⟨?_, fun none => Bool.noConfusion (found.symm.trans none),
      fun _ => (placed.held _ i p low inside here).1, 0, proc⟩
    have level : levels t.proc = levels k.proc := by
      unfold levels
      rw [proc]
      exact funext (Update.same Proc.level rfl)
    have bins : holders t = update (holders k) (levels k.proc p)
        (update (holders k (levels k.proc p)) i none) := by
      funext l j
      unfold holders
      rw [queues, update_apply, update_apply]
      show (if l = levels k.proc p then _ else _ : FQ).holdingproc j = _
      split
      · rename_i equal
        rfl
      · rfl
    rw [level, bins]
    exact placed.remove low inside here

theorem push_placed (level : Nat) (placed : Placed 3 NPROC live (levels k.proc) (holders k))
    (bounded : ∀ q, live q → q < NPROC) (dead : ¬ live p) (inside : p < NPROC) (low : level < 3) :
    ∃ t, push_MLFQ k p level = (t, true) ∧
      Placed 3 NPROC (fun q => live q ∨ q = p) (levels t.proc) (holders t) ∧
      t.proc = update k.proc p (queued (k.proc p) level) := by
  rcases push_cases k p level with ⟨_, full⟩ | ⟨i, t, slot, free, pushed, proc, queues⟩
  · obtain ⟨i, slot, free⟩ := placed.room bounded dead inside low
    exact absurd free (full i slot)
  refine ⟨t, pushed, ?_, proc⟩
  have level' : levels t.proc = update (levels k.proc) p level := by
    funext q
    unfold levels
    rw [proc, update_apply, update_apply]
    split
    · rfl
    · rfl
  have bins : holders t = update (holders k) level
      (update (holders k level) i (some p)) := by
    funext l j
    unfold holders
    rw [queues, update_apply, update_apply]
    split
    · rfl
    · rfl
  rw [level', bins]
  exact placed.insert dead low slot free

section

variable (fair : Fair k)
include fair

/-- One process has been moved in the queues, or out of them. -/
theorem Fair.moved (live : Nat → Prop) (placed : Placed 3 NPROC live (levels t.proc) (holders t))
    (proc : t.proc = update k.proc p new) (others : ∀ q, q ≠ p → (live q ↔ Member k.proc q))
    (own : live p ↔ Live new.state ∧ new.isstride = false)
    (inside : new.state ≠ .unused → p < NPROC) (alone : Alone new) : Fair t := by
  constructor
  · apply placed.congr
    · intro q
      unfold Member
      rw [proc]
      by_cases equal : q = p
      · subst equal
        rw [update_self]
        exact own.symm
      · rw [update_of_ne equal]
        exact (others q equal).symm
    · exact fun _ _ => rfl
  · rw [proc]
    exact (forall_update_iff k.proc fun q now => now.state ≠ .unused → q < NPROC).mpr
      ⟨inside, fun q _ => fair.inside q⟩
  · rw [proc]
    exact (forall_update_iff k.proc fun _ => Alone).mpr ⟨alone, fun q _ => fair.alone q⟩

/-- A process that belongs into no queue changes and still does not. -/
theorem Fair.dead (queues : t.queues = k.queues) (proc : t.proc = update k.proc p new)
    (before : ¬ Live (k.proc p).state) (after : ¬ Live new.state)
    (inside : new.state ≠ .unused → p < NPROC) (alone : Alone new) : Fair t := by
  have dead : ¬ Member k.proc p := fun member => before member.1
  apply fair.moved (Member k.proc) _ proc
  · exact fun _ _ => Iff.rfl
  · exact iff_of_false dead fun member => after member.1
  · exact inside
  · exact alone
  rw [holders_congr queues]
  apply fair.placed.congr
  · exact fun _ => Iff.rfl
  intro q member
  unfold levels
  rw [proc, update_of_ne]
  intro equal
  rw [equal] at member
  exact dead member

theorem Fair.level_change {level : Nat} (low : level < 3)
    (ran : level_change_MLFQ k p level = .ok (t, found)) :
    Fair t := by
  unfold level_change_MLFQ at ran
  obtain ⟨⟨u, popped⟩, pop, ran⟩ := bind_eq_ok.mp ran
  obtain ⟨placed, missing, there, fqtick, proc⟩ := pop_placed fair.placed pop
  cases popped with
  | false =>
    cases ran
    rw [missing rfl]
    exact fair
  | true =>
    have member := there rfl
    obtain ⟨v, pushed, placed, proc'⟩ := push_placed level placed
      (fun q both => fair.inside q both.1.used) (fun both => both.2 rfl)
      (fair.inside p member.used) low
    have same : v = t := congrArg Prod.fst (pushed.symm.trans (Except.ok.inj ran))
    rw [same] at placed proc'
    rw [proc, update_self, update_idem] at proc'
    apply fair.moved _ placed proc'
    · intro q other
      exact ⟨fun given => (given.resolve_right other).1, fun given => .inl ⟨given, other⟩⟩
    · exact ⟨fun _ => ⟨member.1, rfl⟩, fun _ => .inr rfl⟩
    · exact fun _ => fair.inside p member.used
    · exact { fair.alone p with }

theorem Fair.boost (ran : boost_priority k = .ok t) : Fair t := by
  unfold boost_priority at ran
  obtain ⟨u, boosted, ran⟩ := bind_eq_ok.mp ran
  cases ran
  have kept : Fair u := by
    apply foldlM_ok (fun _ v => Fair v) _ fair boosted
    intro done q rest v w _ kept round
    split at round
    · obtain ⟨⟨x, moved⟩, changed, round⟩ := bind_eq_ok.mp round
      cases round
      exact kept.level_change (by omega) changed
    · cases round
      exact kept
  exact ⟨kept.placed, kept.inside, kept.alone⟩

theorem Fair.quantum {allot length : Nat} (ran : quantum k allot length = .ok (t, yields)) :
    Fair t := by
  unfold Process.quantum at ran
  split at ran
  · dsimp only at ran
    split at ran
    · obtain ⟨u, boosted, ran⟩ := bind_eq_ok.mp ran
      cases ran
      exact fair.boost boosted
    · cases ran
      exact fair
  · cases ran
    exact fair

end

end Queues

section Calls

theorem Fair.increase (fair : Fair k) (ran : increasealltick k p = .ok t) : Fair t := by
  unfold increasealltick at ran
  split at ran
  · cases ran
  cases ran
  apply fair.set
  · exact Iff.rfl
  · rfl
  · rfl
  · exact id
  · exact { fair.alone p with }

theorem Fair.tick (fair : Fair k) (ran : tick_add_MLFQ k p = .ok (t, yields)) : Fair t := by
  unfold tick_add_MLFQ at ran
  dsimp only at ran
  split at ran
  · obtain ⟨u, increased, ran⟩ := bind_eq_ok.mp ran
    cases ran
    apply Fair.increase _ increased
    exact ⟨fair.placed, fair.inside, fair.alone⟩
  obtain ⟨u, increased, ran⟩ := bind_eq_ok.mp ran
  have counted : Fair u := by
    apply Fair.increase _ increased
    exact ⟨fair.placed, fair.inside, fair.alone⟩
  split at ran
  · split at ran
    · obtain ⟨⟨v, found⟩, changed, ran⟩ := bind_eq_ok.mp ran
      exact (counted.level_change (by omega) changed).quantum ran
    · exact counted.quantum ran
  split at ran
  · split at ran
    · obtain ⟨⟨v, found⟩, changed, ran⟩ := bind_eq_ok.mp ran
      exact (counted.level_change (by omega) changed).quantum ran
    · exact counted.quantum ran
  · split at ran
    · exact counted.quantum ran
    · cases ran
      exact counted

theorem setthreadtick_alone (alone : Alone (k.proc p)) (ran : setthreadtick k p = .ok t) :
    t.proc = update k.proc p { k.proc p with fqtick := 0 } ∧ t.queues = k.queues := by
  unfold Process.setthreadtick at ran
  dsimp only at ran
  rw [alone.master, getD_none, setProc_self] at ran
  split at ran
  · rename_i isthread
    rw [show (k.proc p).isthread = false from alone.isthread] at isthread
    cases isthread
  · cases ran
    exact ⟨rfl, rfl⟩

theorem fair_setCpuShare {portion : Int} {done : Bool} (fair : Fair k)
    (ran : set_cpu_share k p portion = .ok (t, done)) : Fair t := by
  unfold set_cpu_share at ran
  dsimp only at ran
  split at ran
  · cases ran
    exact fair
  obtain ⟨stride, _, ran⟩ := bind_eq_ok.mp ran
  split at ran
  · cases ran
  rename_i j _
  obtain ⟨own, _, ran⟩ := bind_eq_ok.mp ran
  obtain ⟨u, cleared, ran⟩ := bind_eq_ok.mp ran
  obtain ⟨⟨v, found⟩, popped, ran⟩ := bind_eq_ok.mp ran
  cases ran
  have alone := fair.alone p
  obtain ⟨proc, queues⟩ := setthreadtick_alone (by
    rw [setProc_self]
    exact { alone with }) cleared
  simp only [setProc_proc, setStride_proc, update_self, update_idem] at proc
  have placed : Placed 3 NPROC (Member k.proc) (levels u.proc) (holders u) := by
    rw [holders_congr (k := k) queues]
    apply fair.placed.congr
    · exact fun _ => Iff.rfl
    intro q _
    unfold levels
    rw [proc]
    exact Update.same Proc.level (by rfl) q
  obtain ⟨placed, _, _, fqtick, proc'⟩ := pop_placed placed popped
  rw [proc, update_self, update_idem] at proc'
  apply fair.moved (p := p) fun q => Member k.proc q ∧ q ≠ p
  · apply placed.congr
    · exact fun _ => Iff.rfl
    · intro q both
      unfold levels
      rw [setProc_of_ne both.2]
  · rw [setProc_proc, proc', update_self, update_idem]
  · exact fun q other => ⟨And.left, fun given => ⟨given, other⟩⟩
  · exact ⟨fun both => absurd rfl both.2, fun both => Bool.noConfusion both.2⟩
  · exact fair.inside p
  · exact { alone with }

theorem workers_alone (alone : Alone (k.proc p)) : k.workers p = [] := by
  unfold Kernel.workers
  rw [List.filterMap_eq_nil_iff]
  exact fun i _ => alone.workers i

theorem unschedule_placed (fair : Fair k) (ran : unschedule k p = .ok t) :
    Placed 3 NPROC (fun q => Member k.proc q ∧ q ≠ p) (levels t.proc) (holders t) ∧
    ∃ fqtick, t.proc = update k.proc p { k.proc p with fqtick := fqtick } := by
  unfold unschedule at ran
  split at ran
  · rename_i stride
    obtain ⟨_, _, ran⟩ := bind_eq_ok.mp ran
    cases ran
    refine ⟨?_, (k.proc p).fqtick, (update_eq_self p k.proc).symm⟩
    apply fair.placed.congr
    · intro q
      constructor
      · exact And.left
      · intro member
        refine ⟨member, ?_⟩
        intro equal
        rw [equal] at member
        exact Bool.noConfusion (stride.symm.trans member.2)
    · exact fun _ _ => rfl
  · obtain ⟨⟨u, found⟩, popped, ran⟩ := bind_eq_ok.mp ran
    cases ran
    obtain ⟨placed, _, _, fqtick, proc⟩ := pop_placed fair.placed popped
    exact ⟨placed, fqtick, proc⟩

theorem fair_exit (fair : Fair k) (inside : p < NPROC) (ran : exit k p = .ok t) : Fair t := by
  have self := masterOf_self (fair.alone p).master
  obtain ⟨v, w, isOrphan, unscheduled, ended⟩ := exit_eq ran
  rw [self] at isOrphan unscheduled ended
  have orphaned : Fair v := by
    rw [isOrphan]
    exact fair.bystanders (orphan_only k _ p).scheduler.1 (orphan_bystander k _ p)
  have alone := orphaned.alone p
  unfold endWorkers at unscheduled
  rw [workers_alone alone] at unscheduled
  obtain ⟨placed, fqtick, proc⟩ := unschedule_placed orphaned unscheduled
  rw [ended]
  apply orphaned.moved (p := p) fun q => Member v.proc q ∧ q ≠ p
  · apply placed.congr
    · exact fun _ => Iff.rfl
    · intro q both
      unfold levels
      rw [setProc_of_ne both.2]
  · rw [setProc_proc, proc, update_self, update_idem]
  · exact fun q other => ⟨And.left, fun given => ⟨given, other⟩⟩
  · constructor
    · exact fun both => absurd rfl both.2
    · exact fun zombie => absurd zombie.1 not_live_zombie
  · exact fun _ => inside
  · exact { alone with }

theorem reclaimWorkers_alone (alone : Alone (k.proc p)) (ran : reclaimWorkers k p = .ok t) :
    t = k := by
  apply foldlM_ok (fun _ v => v = k) _ rfl ran
  intro done i rest v w _ same round
  rw [same, alone.workers i] at round
  cases round
  rfl

theorem fair_switch (fair : Fair k) (before : Live (k.proc p).state) (after : Live new.state)
    (stride : new.isstride = (k.proc p).isstride) (level : new.level = (k.proc p).level)
    (alone : Alone new) :
    Fair (k.setProc p new) := by
  apply fair.set
  · exact iff_of_true after before
  · exact stride
  · exact level
  · intro _ unused
    rw [unused] at before
    exact not_live_unused before
  · exact alone

theorem fair_wait {progress : Progress} (fair : Fair k) (running : (k.proc p).state = .running)
    (ran : wait k p = .ok (t, progress)) : Fair t := by
  unfold wait at ran
  split at ran
  · rename_i c found
    obtain ⟨_, _, good, _⟩ := Scan.first_eq_some found
    rw [Bool.and_eq_true, beq_iff_eq] at good
    have alone := fair.alone c
    obtain ⟨u, reclaimed, ran⟩ := bind_eq_ok.mp ran
    rw [reclaimWorkers_alone alone reclaimed] at ran
    obtain ⟨v, freed, ran⟩ := bind_eq_ok.mp ran
    obtain ⟨w, freedvm, ran⟩ := bind_eq_ok.mp ran
    cases ran
    have table : w.proc = update k.proc c { k.proc c with kstack := none } := by
      rw [(freevm_proc freedvm).1, setProc_proc, (free_proc freed).1]
    have queues : w.queues = k.queues := by
      rw [(freevm_proc freedvm).2, setProc_queues, (free_proc freed).2]
    apply fair.dead (p := c)
    · rw [setProc_queues, queues]
    · rw [setProc_proc, table, update_self, update_idem]
    · rw [good.2]
      exact not_live_zombie
    · exact not_live_unused
    · exact fun used => absurd rfl used
    · exact { alone with }
  · split at ran
    · cases ran
      exact fair
    cases ran
    apply fair_switch fair
    · exact .inr (.inl running)
    · exact .inr (.inr rfl)
    · rfl
    · rfl
    · exact { fair.alone p with }

theorem fair_kill (fair : Fair k) (pid : Nat) : Fair (kill k pid).1 := by
  have queues : (kill k pid).1.queues = k.queues := by
    unfold kill
    split
    · rfl
    · dsimp only
      split
      · rfl
      · rfl
  refine fair.woken queues fun q => ?_
  obtain ⟨killed, state, same, _, states⟩ := kill_slot k pid q
  rw [same]
  exact ⟨states, rfl, rfl, { fair.alone q with }⟩

theorem push_mem (k : Kernel) (p level : Nat) : (push_MLFQ k p level).1.mem = k.mem := by
  unfold push_MLFQ
  split
  · rfl
  · rfl

theorem allocprocRest_mem (ran : allocprocRest k p = (t, true)) :
    k.mem.freelist.length = t.mem.freelist.length + 1 := by
  unfold allocprocRest at ran
  split at ran
  · cases ran
  rename_i u allocated
  have same : t.mem = u.mem := by
    cases ran
    exact push_mem u p 0
  rw [same]
  unfold Kernel.allocStack at allocated
  split at allocated
  · cases allocated
  · rename_i m frame taken
    cases allocated
    rw [(kalloc_some taken).1]
    rfl

/-- A new process of `allocproc` is in the queue of level 0. -/
theorem allocproc_placed {np : Nat} (fair : Fair k) (ran : allocproc k = (t, some np)) :
    Placed 3 NPROC (fun q => Member k.proc q ∨ q = np) (levels t.proc) (holders t) ∧
    (∃ new, t.proc = update k.proc np new ∧ new.isstride = false ∧ Alone new) ∧
    np < NPROC ∧ (k.proc np).state = .unused ∧
    k.mem.freelist.length = t.mem.freelist.length + 1 := by
  obtain ⟨found, allocated⟩ := allocproc_some ran
  obtain ⟨inside, unused⟩ := unusedSlot_spec found
  have dead : ¬ Member k.proc np := fun member => member.used unused
  obtain ⟨v, frame, proc, queues, queues', proc'⟩ := allocprocRest_true allocated
  rw [claim_proc, update_self, update_idem] at proc
  have placed : Placed 3 NPROC (Member k.proc) (levels v.proc) (holders v) := by
    rw [holders_congr (k := k) queues]
    apply fair.placed.congr
    · exact fun _ => Iff.rfl
    intro q member
    unfold levels
    rw [proc, update_of_ne]
    intro equal
    rw [equal] at member
    exact dead member
  obtain ⟨w, pushed, placed, table⟩ := push_placed 0 placed
    (fun q member => fair.inside q member.used) dead inside (by decide)
  rw [pushed] at queues' proc'
  dsimp only at queues' proc'
  rw [proc, update_self, update_idem] at table
  have level : levels t.proc = levels w.proc := by
    unfold levels
    rw [proc']
    exact funext (Update.same Proc.level rfl)
  rw [table, update_self, update_idem] at proc'
  refine ⟨?_, ⟨_, proc', rfl, ?_⟩, inside, unused, allocprocRest_mem (k := k.claim np) allocated⟩
  · rw [level, holders_congr queues']
    exact placed
  · exact { fair.alone np with }

/-- Where `allocproc` fails the queues are left alone. -/
theorem allocproc_none (ran : allocproc k = (t, none)) : t.queues = k.queues ∧
    (t = k ∨ ∃ np pid, (k.proc np).state = .unused ∧ t.proc = update k.proc np
      { k.proc np with kstack := none, state := .unused, pid := pid }) := by
  unfold allocproc at ran
  split at ran
  · cases ran
    exact ⟨rfl, .inl rfl⟩
  rename_i p found
  split at ran
  · rename_i u allocated
    cases ran
    obtain ⟨rfl, _⟩ := allocStack_false (allocprocRest_false allocated)
    rw [setProc_proc, claim_proc, update_self, update_idem]
    exact ⟨rfl, .inr ⟨p, _, (unusedSlot_spec found).2, rfl⟩⟩
  · cases ran

/-- With enough memory a fork that fails has failed in `allocproc`. -/
theorem fork_none (supplied : Supplied k p) (fair : Fair k) (running : (k.proc p).state = .running)
    (ran : fork k p = .ok (t, none)) : allocproc k = (t, none) := by
  unfold fork at ran
  split at ran
  · rename_i allocated
    cases ran
    exact allocated
  rename_i u np allocated
  exfalso
  obtain ⟨_, ⟨new, proc, _⟩, _, unused, length⟩ := allocproc_placed fair allocated
  obtain ⟨_, _, d, dir, m, _, copies⟩ := forkRest_none ran
  have other : p ≠ np := by
    intro equal
    rw [equal, unused] at running
    cases running
  rw [proc, update_of_ne other] at copies
  rcases supplied with full | empty | enough
  · cases full.symm.trans (allocproc_some allocated).1
  · rw [empty] at length
    cases length
  · exact copyuvm_supply (by omega) copies

/-- The new process of `allocproc` becomes a live one. -/
theorem Fair.started {np : Nat} {final : Proc} (fair : Fair k)
    (allocated : allocproc k = (u, some np)) (queues : t.queues = u.queues)
    (proc : t.proc = update u.proc np final) (live : Live final.state)
    (stride : final.isstride = (u.proc np).isstride) (level : final.level = (u.proc np).level)
    (alone : Alone (u.proc np) → Alone final) : Fair t := by
  obtain ⟨placed, ⟨new, made, free, single⟩, inside, _⟩ := allocproc_placed fair allocated
  have slot : u.proc np = new := by
    rw [made, update_self]
  rw [slot] at stride level alone
  apply fair.moved (p := np) fun q => Member k.proc q ∨ q = np
  · rw [holders_congr queues]
    apply placed.congr
    · exact fun _ => Iff.rfl
    intro q _
    unfold levels
    rw [proc]
    exact Update.same Proc.level (by rw [slot, level]) q
  · rw [proc, made, update_idem]
  · exact fun q other => ⟨fun given => given.resolve_right other, .inl⟩
  · exact ⟨fun _ => ⟨live, stride.trans free⟩, fun _ => .inr rfl⟩
  · exact fun _ => inside
  · exact alone single

theorem fair_fork {made : Option Nat} (fair : Fair k) (supplied : Supplied k p)
    (running : (k.proc p).state = .running) (ran : fork k p = .ok (t, made)) : Fair t := by
  cases made with
  | none =>
    obtain ⟨queues, same | ⟨np, pid, unused, proc⟩⟩ :=
      allocproc_none (fork_none supplied fair running ran)
    · rw [same]
      exact fair
    apply fair.dead queues proc
    · rw [unused]
      exact not_live_unused
    · exact not_live_unused
    · exact fun used => absurd rfl used
    · exact { fair.alone np with }
  | some c =>
    unfold fork at ran
    split at ran
    · cases ran
    rename_i u np allocated
    obtain ⟨_, queues, d, proc⟩ := forkRest_some ran
    apply Fair.started fair allocated queues proc
    · exact .inl rfl
    · rfl
    · rfl
    · exact fun alone => { alone with }

end Calls

theorem fair_step (event : Event) (fair : Fair k) (careful : Careful k event)
    (taken : step k event = some next) : Fair next := by
  cases event with
  | fork p =>
    obtain ⟨running, taken⟩ := ite_none_right_eq_some.mp taken
    obtain ⟨made, ran⟩ := toOption_map_fst_eq_some.mp taken
    exact fair_fork fair careful running ran
  | setCpuShare p portion =>
    obtain ⟨running, taken⟩ := ite_none_right_eq_some.mp taken
    obtain ⟨done, ran⟩ := toOption_map_fst_eq_some.mp taken
    exact fair_setCpuShare fair ran
  | tick p =>
    obtain ⟨running, taken⟩ := ite_none_right_eq_some.mp taken
    obtain ⟨yields, ran⟩ := toOption_map_fst_eq_some.mp taken
    exact fair.tick ran
  | exit p =>
    obtain ⟨running, taken⟩ := ite_none_right_eq_some.mp taken
    apply fair_exit fair (fair.inside p _) (toOption_eq_some.mp taken)
    rw [running]
    exact ProcState.noConfusion
  | wait p =>
    obtain ⟨running, taken⟩ := ite_none_right_eq_some.mp taken
    obtain ⟨progress, ran⟩ := toOption_map_fst_eq_some.mp taken
    exact fair_wait fair running ran
  | kill pid =>
    cases taken
    exact fair_kill fair pid
  | dispatch p =>
    obtain ⟨runnable, taken⟩ := ite_none_right_eq_some.mp taken
    cases taken
    apply fair_switch fair
    · exact .inl runnable
    · exact .inr (.inl rfl)
    · rfl
    · rfl
    · exact { fair.alone p with }
  | yield p =>
    obtain ⟨running, taken⟩ := ite_none_right_eq_some.mp taken
    cases taken
    apply fair_switch fair
    · exact .inr (.inl running)
    · exact .inl rfl
    · rfl
    · rfl
    · exact { fair.alone p with }
  | sleep p chan =>
    obtain ⟨running, taken⟩ := ite_none_right_eq_some.mp taken
    cases taken
    apply fair_switch fair
    · exact .inr (.inl running)
    · exact .inr (.inr rfl)
    · rfl
    · rfl
    · exact { fair.alone p with }
  | wakeup chan =>
    cases taken
    apply fair.bystanders (p := 0)
    · rfl
    · exact wakeup1_bystander 0 k chan
  | memory m pgdirs sz pgdir =>
    cases taken
    apply fair.table
    · rfl
    · exact fun _ => Iff.rfl
    · exact fun _ _ => rfl
    · exact fair.inside
    · exact fun q => { fair.alone q with }

theorem fair_empty (dead : ∀ p, (k.proc p).state = .unused) (alone : ∀ p, Alone (k.proc p))
    (empty : ∀ level i, level < 3 → holders k level i = none) : Fair k := by
  constructor
  · constructor
    · intro l i p low _ held
      rw [empty l i low] at held
      cases held
    · intro p member
      exact absurd (dead p) member.used
    · intro l i j p low _ _ held
      rw [empty l i low] at held
      cases held
  · exact fun p used => absurd (dead p) used
  · exact alone

theorem fair_boot {m : Mem} {code : Nat → UInt8}
    (booted : userinit (Kernel.boot m) code = .ok k) : Fair k := by
  unfold userinit at booted
  dsimp only at booted
  split at booted
  · cases booted
  rename_i u p allocated
  obtain ⟨⟨m₁, made⟩, _, booted⟩ := bind_eq_ok.mp booted
  split at booted
  · cases booted
  obtain ⟨⟨m₂, dir⟩, _, booted⟩ := bind_eq_ok.mp booted
  cases booted
  refine Fair.started (fair_empty ?_ ?_ ?_) allocated rfl rfl ?_ rfl rfl ?_
  · exact fun _ => rfl
  · exact fun _ => ⟨rfl, rfl, fun _ => rfl⟩
  · intro level i low
    unfold holders
    dsimp only
    rw [if_pos low]
  · exact .inl rfl
  · exact fun alone => { alone with }

/-- Each live process without a share is in one slot, in the queue of its level, and no process is
in a slot that is unused, a zombie or has a share. -/
structure Exact (k : Kernel) : Prop where
  one : ∀ p, Live (k.proc p).state → (k.proc p).isstride = false →
    ∃! slot : Nat × Nat, slot.1 < 3 ∧ slot.2 < NPROC ∧ (k.queues slot.1).holdingproc slot.2 = some p
  level : ∀ level i p, level < 3 → i < NPROC → (k.queues level).holdingproc i = some p →
    (k.proc p).level = level
  holds : ∀ level i p, level < 3 → i < NPROC → (k.queues level).holdingproc i = some p →
    (k.proc p).state ≠ .unused ∧ (k.proc p).state ≠ .zombie ∧ (k.proc p).isstride = false

theorem Fair.exact (fair : Fair k) : Exact k := by
  constructor
  · intro p live stride
    obtain ⟨low, i, inside, here⟩ := fair.placed.present p ⟨live, stride⟩
    refine ⟨((k.proc p).level, i), ⟨low, inside, here⟩, ?_⟩
    rintro ⟨l, j⟩ ⟨low', inside', there⟩
    have level : (k.proc p).level = l := (fair.placed.held l j p low' inside' there).2
    subst level
    exact congrArg _ (fair.placed.unique _ j i p low inside' inside there here)
  · intro l i p low inside here
    exact (fair.placed.held l i p low inside here).2
  · intro l i p low inside here
    have member := (fair.placed.held l i p low inside here).1
    refine ⟨member.used, ?_, member.2⟩
    intro zombie
    have live := member.1
    rw [zombie] at live
    exact not_live_zombie live

/-- A fork that returns -1 leaves the queues alone. -/
def Unmoved (k : Kernel) : Event → Prop
  | .fork p => ∀ t, (k.proc p).state = .running → fork k p = .ok (t, none) → t.queues = k.queues
  | _ => True

theorem queues_exact (m : Mem) (code : Nat → UInt8) (k : Kernel)
    (booted : userinit (Kernel.boot m) code = .ok k) (events : List Event)
    (careful : Run.Steps step Careful k events) :
    Run.Steps step Unmoved k events ∧ ∀ last, Run.exec step k events = some last → Exact last := by
  have kept : ∀ k event next, Fair k → Careful k event → step k event = some next → Fair next :=
    fun _ event _ fair careful taken => fair_step event fair careful taken
  constructor
  · apply Run.steps_of_invariant Fair kept _ (fair_boot booted) careful
    intro k event fair careful
    cases event with
    | fork p =>
      intro t running returned
      exact (allocproc_none (fork_none careful fair running returned)).1
    | setCpuShare _ _ | tick _ | exit _ | wait _ | kill _ | dispatch _ | yield _ | sleep _ _
    | wakeup _ | memory _ _ _ _ => trivial
  · intro last run
    exact (Run.exec_invariant Fair kept (fair_boot booted) careful run).exact

/-- A fork, a tick and a share on the small machine. -/
def smallRun : List Event :=
  [.dispatch 0, .fork 0, .tick 0, .setCpuShare 0 20, .sleep 0 none, .dispatch 1, .exit 1]

theorem queues_exact_small : ∃ k last, userinit (Kernel.boot smallMem) (fun _ => 0) = .ok k ∧
    Run.exec step k smallRun = some last ∧ Exact last := by
  obtain ⟨k, last, booted, ends, careful⟩ :=
    run_small step id smallRun (fun k _ => Run.Steps step Careful k smallRun) (by decide +kernel)
  exact ⟨k, last, booted, ends,
      (queues_exact smallMem (fun _ => 0) k booted smallRun careful).2 last ends⟩

/-- A machine with two free pages after `userinit`. -/
def tightMem : Mem := ⟨(List.range 70).map (· + 1), fun _ _ => 0⟩

/-- The fork finds a page for the kernel stack and none for the page tables. -/
theorem fork_leaves_slot :
    (((userinit (Kernel.boot tightMem) fun _ => 0).toOption.bind
      fun k => step k (.dispatch 0)).bind fun k => (fork k 0).toOption).map
        (fun (t, made) => (made, (t.queues 0).holdingproc 1, (t.proc 1).state)) =
      some (none, some 1, .unused) := by decide +kernel

end Xv6.Process.Queue
