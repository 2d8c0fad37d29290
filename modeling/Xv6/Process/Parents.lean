import Xv6.Process.Calls

/- The parents of processes in runs of calls. -/
namespace Xv6.Process.Parents

open Function Calls Outcome Option

/-- Nothing in the source records `since`: the pid that the parent of a process had when the link to
it was set. -/
structure Sys where
  m : Machine
  since : Nat → Option Nat

/-- A link is set when it changes and when a slot is taken. -/
def note (k t : Kernel) (since : Nat → Option Nat) (q : Nat) : Option Nat :=
  if (k.proc q).state = .unused ∨ (t.proc q).parent ≠ (k.proc q).parent then
    (t.proc q).parent.map fun r => (t.proc r).pid
  else since q

def step (s : Sys) (event : Event) : Option Sys :=
  (Calls.step s.m event).map fun next => ⟨next, note s.m.k next.k s.since⟩

/-- No worker in the group of `p` has a child. -/
def Childless (k : Kernel) (p : Nat) : Prop :=
  ∀ q < NPROC, (k.proc q).state ≠ .unused → ∀ w ∈ k.workers (k.masterOf p),
    (k.proc q).parent ≠ some w

instance (k : Kernel) (p : Nat) : Decidable (Childless k p) :=
  inferInstanceAs (Decidable (∀ q < NPROC, _ → ∀ w ∈ k.workers (k.masterOf p), _ ≠ _))

/-- A group ends when its workers have no children, and init makes no threads. -/
def Careful (s : Sys) : Event → Prop
  | .threadCreate p _ => s.m.k.initproc ≠ some (s.m.k.masterOf p)
  | .threadExit p _ => (s.m.k.proc p).master = none → s.m.Alone p ∧ Childless s.m.k p
  | .exit p => s.m.Alone p ∧ Childless s.m.k p
  | event => Gentle s.m event

theorem Careful.gentle {s : Sys} {event : Event} (careful : Careful s event) :
    Gentle s.m event := by
  cases event with
  | threadCreate => trivial
  | threadExit => exact fun root => (careful root).1
  | exit => exact careful.1
  | _ => exact careful

structure Family (k : Kernel) (since : Nat → Option Nat) : Prop where
  inside : ∀ p, (k.proc p).state ≠ .unused → p < NPROC
  init : ∃ i, k.initproc = some i ∧ Live (k.proc i).state ∧ (k.proc i).master = none ∧
    ∀ j, (k.proc i).workerthread j = none
  parent : ∀ p, (k.proc p).state ≠ .unused → k.initproc ≠ some p →
    ∃ q, (k.proc p).parent = some q ∧ Live (k.proc q).state ∧ since p = some (k.proc q).pid
  group : ∀ m i w, (k.proc m).workerthread i = some w → (k.proc w).parent = (k.proc m).parent

variable {s next : Sys} {k t : Kernel} {p q np : Nat} {since : Nat → Option Nat} {cpu : Nat → Bool}

section

variable (family : Family k since) (initproc : t.initproc = k.initproc)
include family initproc

/-- Everybody in use has a live parent afterwards, and live processes keep their pids. -/
theorem Family.turn (inside : ∀ q, (t.proc q).state ≠ .unused → q < NPROC)
    (init : ∀ i, k.initproc = some i → Live (k.proc i).state → Live (t.proc i).state ∧
      (t.proc i).master = (k.proc i).master ∧ (t.proc i).workerthread = (k.proc i).workerthread)
    (pids : ∀ r, Live (k.proc r).state → Live (t.proc r).state → (t.proc r).pid = (k.proc r).pid)
    (parents : ∀ q, (t.proc q).state ≠ .unused → k.initproc ≠ some q →
      ∃ r, (t.proc q).parent = some r ∧ Live (t.proc r).state)
    (group : ∀ m i w, (t.proc m).workerthread i = some w → (t.proc w).parent = (t.proc m).parent) :
    Family t (note k t since) := by
  constructor
  · exact inside
  · obtain ⟨i, isInit, live, root, empty⟩ := family.init
    obtain ⟨live', root', lists⟩ := init i isInit live
    refine ⟨i, initproc.trans isInit, live', root'.trans root, ?_⟩
    intro j
    rw [lists]
    exact empty j
  · intro q used notInit
    rw [initproc] at notInit
    obtain ⟨r, parent, live⟩ := parents q used notInit
    refine ⟨r, parent, live, ?_⟩
    unfold note
    split
    · rw [parent]
      rfl
    -- the link is an old one, and its target has been live since
    rename_i old
    rw [not_or, not_not] at old
    obtain ⟨r', parent', live', recorded⟩ := family.parent q old.1 notInit
    rw [old.2, parent'] at parent
    cases parent
    rw [recorded, pids r live' live]
  · exact group

theorem Family.moves (moves : ∀ q, Moves (k.proc q).state (t.proc q).state)
    (same : ∀ q, (t.proc q).parent = (k.proc q).parent ∧ (t.proc q).pid = (k.proc q).pid ∧
      (t.proc q).master = (k.proc q).master ∧ (t.proc q).workerthread = (k.proc q).workerthread) :
    Family t (note k t since) := by
  have live : ∀ q, Live (k.proc q).state → Live (t.proc q).state := fun q => (moves q).live.mpr
  have used : ∀ q, (t.proc q).state ≠ .unused → (k.proc q).state ≠ .unused :=
    fun q used unused => used ((moves q).used.1.mpr unused)
  apply family.turn initproc
  · exact fun q inUse => family.inside q (used q inUse)
  · exact fun i _ alive => ⟨live i alive, (same i).2.2⟩
  · exact fun r _ _ => (same r).2.1
  · intro q inUse notInit
    obtain ⟨r, parent, alive, _⟩ := family.parent q (used q inUse) notInit
    exact ⟨r, (same q).1.trans parent, live r alive⟩
  · intro m i w listed
    rw [(same m).2.2.2] at listed
    rw [(same w).1, (same m).1]
    exact family.group m i w listed

theorem Family.woken (ties : ∀ q, SameTies (k.proc q) (t.proc q))
    (steady : ∀ q, Steady (k.proc q) (t.proc q))
    (parents : ∀ q, (t.proc q).parent = (k.proc q).parent) : Family t (note k t since) := by
  apply family.moves initproc
  · exact fun q => moves_of_woken (steady q).2
  · exact fun q => ⟨parents q, (steady q).1, (ties q).master, (ties q).workerthread⟩

theorem Family.set {new : Proc} (proc : t.proc = (k.setProc p new).proc)
    (live : Live (k.proc p).state) (live' : Live new.state)
    (same : new.parent = (k.proc p).parent ∧ new.pid = (k.proc p).pid ∧
      new.master = (k.proc p).master ∧ new.workerthread = (k.proc p).workerthread) :
    Family t (note k t since) := by
  apply family.moves initproc
  · intro q
    rw [proc]
    exact setProc_moves (.inr ⟨live, live'⟩) q
  · intro q
    rw [proc]
    exact ⟨setProc_same Proc.parent same.1 q, setProc_same Proc.pid same.2.1 q,
      setProc_same Proc.master same.2.2.1 q, setProc_same Proc.workerthread same.2.2.2 q⟩

end

/-- Some members of one group die, whose children go to init. -/
theorem Family.ends {gone : Nat → Prop} {head : Nat} (family : Family k since)
    (grouped : Grouped k.proc) (ends : Ended gone head k t)
    (orphans : ∀ q r, (k.proc q).state ≠ .unused → (k.proc q).parent = some r → gone r → r = head)
    (survives : ∀ i, k.initproc = some i → ¬ gone i) : Family t (note k t since) := by
  have live : ∀ q, ¬ gone q → Live (k.proc q).state → Live (t.proc q).state :=
    fun q stays => (ends.others q stays).live.1.mpr
  obtain ⟨init, isInit, initLive, _⟩ := family.init
  apply family.turn ends.memory.initproc
  · exact fun q inUse => family.inside q (ends.used grouped inUse)
  · exact fun i isInit alive =>
      ⟨live i (survives i isInit) alive, (ends.ties i).master, (ends.ties i).workerthread⟩
  · exact fun r _ _ => (ends.record r).1
  · intro q inUse notInit
    have before := ends.used grouped inUse
    obtain ⟨r, parent, alive, _⟩ := family.parent q before notInit
    rw [ends.parents q (family.inside q before)]
    split
    · exact ⟨init, isInit, live init (survives init isInit) initLive⟩
    · rename_i other
      refine ⟨r, parent, live r ?_ alive⟩
      intro leaves
      rw [orphans q r before parent leaves] at parent
      exact other parent
  · intro m i w listed
    rw [(ends.ties m).workerthread] at listed
    obtain ⟨_, inUse, _, _⟩ := grouped.list m i w listed
    have top := (grouped.top m i w listed).1.1
    rw [ends.parents w (family.inside w inUse), ends.parents m (family.inside m top),
      family.group m i w listed]

section

variable (family : Family k since) (grouped : Grouped k.proc) (initproc : t.initproc = k.initproc)
    (found : k.unusedSlot = some np)
include family grouped initproc found

/-- A free slot is used or at least touched: its process has a live parent then, and if it is
listed, that of its master. -/
theorem Family.slot (kept : ∀ q, q ≠ np → (t.proc q).state = (k.proc q).state ∧
      (t.proc q).parent = (k.proc q).parent ∧ (t.proc q).pid = (k.proc q).pid ∧
      (t.proc q).master = (k.proc q).master)
    (own : (t.proc np).state ≠ .unused → ∃ r, (t.proc np).parent = some r ∧ Live (k.proc r).state)
    (head : ∀ i, k.initproc = some i → (t.proc i).workerthread = (k.proc i).workerthread)
    (lists : ∀ m j w, (t.proc m).workerthread j = some w → (k.proc m).workerthread j = some w ∨
      w = np ∧ (t.proc np).parent = (t.proc m).parent) : Family t (note k t since) := by
  obtain ⟨inside, unused⟩ := unusedSlot_spec found
  have old : ∀ q, (k.proc q).state ≠ .unused → q ≠ np := fun q used equal => used (equal ▸ unused)
  have live : ∀ q, Live (k.proc q).state → Live (t.proc q).state := by
    intro q alive
    rw [(kept q (old q alive.settled.1)).1]
    exact alive
  apply family.turn initproc
  · intro q used
    by_cases here : q = np
    · rw [here]
      exact inside
    · rw [(kept q here).1] at used
      exact family.inside q used
  · intro i isInit alive
    exact ⟨live i alive, (kept i (old i alive.settled.1)).2.2.2, head i isInit⟩
  · exact fun r alive _ => (kept r (old r alive.settled.1)).2.2.1
  · intro q used notInit
    by_cases here : q = np
    · rw [here] at used ⊢
      obtain ⟨r, parent, alive⟩ := own used
      exact ⟨r, parent, live r alive⟩
    · rw [(kept q here).1] at used
      obtain ⟨r, parent, alive, _⟩ := family.parent q used notInit
      exact ⟨r, (kept q here).2.1.trans parent, live r alive⟩
  · intro m j w listed
    rcases lists m j w listed with before | ⟨rfl, parent⟩
    · rw [(kept m (old m (grouped.top m j w before).1.1)).2.1,
        (kept w (old w (grouped.list m j w before).2.1)).2.1]
      exact family.group m j w before
    · exact parent

theorem Family.slot_only {new : Proc} (table : t.proc = update k.proc np new)
    (own : new.state ≠ .unused → ∃ r, new.parent = some r ∧ Live (k.proc r).state)
    (list : new.workerthread = (k.proc np).workerthread) : Family t (note k t since) := by
  have lists : ∀ m, (t.proc m).workerthread = (k.proc m).workerthread := by
    rw [table]
    exact Update.same Proc.workerthread list
  apply family.slot grouped initproc found
  · intro q other
    rw [table, update_of_ne other]
    exact ⟨rfl, rfl, rfl, rfl⟩
  · rw [table, update_self]
    exact own
  · exact fun i _ => lists i
  · intro m j w listed
    rw [lists m] at listed
    exact .inl listed

end

section

variable (family : Family k since) (grouped : Grouped k.proc) (live : Live (k.proc p).state)
include family

theorem Family.table (initproc : t.initproc = k.initproc) (same : t.proc = k.proc) :
    Family t (note k t since) := by
  apply family.moves initproc
  · intro q
    rw [same]
    exact .inl rfl
  · intro q
    rw [same]
    exact ⟨rfl, rfl, rfl, rfl⟩

include grouped live

theorem family_fork {made : Option Nat} (ran : fork k p = .ok (t, made)) :
    Family t (note k t since) := by
  obtain ⟨initproc, same | ⟨np, new, found, table, lists, _, state⟩⟩ := fork_table ran
  · exact family.table initproc same
  · refine family.slot_only grouped initproc found table (fun used => ?_) lists
    rcases state with isUnused | ⟨_, parent⟩
    · exact absurd isUnused used
    · exact ⟨p, parent, live⟩

theorem family_thread_create {arg : Nat} {made : Option Nat}
    (notInit : k.initproc ≠ some (k.masterOf p)) (ran : thread_create k p arg = .ok (t, made)) :
    Family t (note k t since) := by
  have used := (grouped.masterOf live.settled).1.1
  rcases thread_create_table used ran with ⟨rfl, _⟩ | ⟨initproc, _, np, found, ⟨_, table⟩ |
    ⟨i, frame, sz, top, state, _, free, ⟨_, _, rfl⟩, _, table⟩⟩
  · exact family.table rfl rfl
  · exact family.slot_only grouped initproc found table (absurd rfl) rfl
  generalize k.masterOf p = master at *
  obtain ⟨r, link, alive, _⟩ := family.parent master used notInit
  have parent : (t.proc np).parent = (k.proc master).parent := by
    rw [table, update_self]
    rfl
  have isOld : master ≠ np := fun equal => used (equal ▸ (unusedSlot_spec found).2)
  have head := congrFun table master
  rw [update_of_ne isOld, update_self] at head
  have apart : ∀ q, q ≠ master → (t.proc q).workerthread = (k.proc q).workerthread := by
    intro q notMaster
    rw [table, update_apply]
    split
    · rename_i isNew
      rw [isNew]
      rfl
    · rw [update_of_ne notMaster]
  apply family.slot grouped initproc found
  · intro q other
    rw [table, update_of_ne other, update_apply]
    split
    · rename_i isMaster
      rw [isMaster]
      exact ⟨rfl, rfl, rfl, rfl⟩
    · exact ⟨rfl, rfl, rfl, rfl⟩
  · exact fun _ => ⟨r, parent.trans link, alive⟩
  · exact fun i isInit => apart i fun isMaster => notInit (isMaster ▸ isInit)
  · intro m j w listed
    by_cases isMaster : m = master
    · rw [isMaster, head] at listed ⊢
      change update (k.proc master).workerthread i (some np) j = some w at listed
      rw [update_apply] at listed
      split at listed
      · exact .inr ⟨(some.inj listed).symm, parent⟩
      · exact .inl listed
    · rw [apart m isMaster] at listed
      exact .inl listed

theorem family_exit (childless : Childless k p) (ran : exit k p = .ok t) :
    Family t (note k t since) := by
  have ends := ended_exit grouped live.settled ran
  obtain ⟨init, isInit, _, _, empty⟩ := family.init
  -- init is not in the group, since it has no workers and cannot exit itself
  have survives : ¬ (init = k.masterOf p ∨ init ∈ k.workers (k.masterOf p)) := by
    unfold exit at ran
    dsimp only at ran
    split at ran
    · cases ran
    rename_i allowed
    rw [not_or] at allowed
    rintro (isMaster | isWorker)
    · rcases grouped.member live.settled with isTop | worker
      · rw [isInit, isMaster, ← isTop] at allowed
        exact allowed.1 rfl
      · rw [← isMaster] at worker
        obtain ⟨i, listed⟩ := grouped.mem_workers.mp worker
        rw [empty i] at listed
        cases listed
    · exact allowed.2 ⟨init, isWorker, isInit⟩
  apply family.ends grouped ends
  · rintro q r used parent (isMaster | isWorker)
    · exact isMaster
    · exact absurd parent (childless q (family.inside q used) used r isWorker)
  · intro i isInit'
    rw [isInit] at isInit'
    cases isInit'
    exact survives

theorem family_thread_exit {retval master : Nat} (link : (k.proc p).master = some master)
    (ran : thread_exit k p retval = .ok t) : Family t (note k t since) := by
  obtain ⟨init, isInit, _, root, _⟩ := family.init
  apply family.ends grouped (ended_thread_exit grouped live link ran)
  · exact fun q r _ _ here => here
  · intro i isInit' here
    rw [isInit] at isInit'
    cases isInit'
    rw [here, link] at root
    cases root

end

theorem Family.reclaims (family : Family k since) (gone : Nat → Prop)
    (initproc : t.initproc = k.initproc)
    (dead : ∀ q, gone q → (k.proc q).state = .zombie ∧ (t.proc q).state = .unused)
    (others : ∀ q, ¬ gone q → (t.proc q).state = (k.proc q).state ∧
      (t.proc q).parent = (k.proc q).parent ∧ (t.proc q).pid = (k.proc q).pid ∧
      (t.proc q).master = (k.proc q).master) (lists : ∀ m i w, (t.proc m).workerthread i = some w →
      (k.proc m).workerthread i = some w ∧ ¬ gone m ∧ ¬ gone w)
    (init : ∀ i, k.initproc = some i → ¬ gone i →
      (t.proc i).workerthread = (k.proc i).workerthread) :
    Family t (note k t since) := by
  have alive : ∀ q, Live (k.proc q).state → ¬ gone q := by
    intro q live leaves
    rw [(dead q leaves).1] at live
    exact not_live_zombie live
  have stays : ∀ q, (t.proc q).state ≠ .unused → ¬ gone q :=
    fun q used leaves => used (dead q leaves).2
  apply family.turn initproc
  · intro q used
    rw [(others q (stays q used)).1] at used
    exact family.inside q used
  · intro i isInit live
    have here := alive i live
    refine ⟨?_, (others i here).2.2.2, init i isInit here⟩
    rw [(others i here).1]
    exact live
  · exact fun r live _ => (others r (alive r live)).2.2.1
  · intro q used notInit
    have here := stays q used
    rw [(others q here).1] at used
    obtain ⟨r, parent, live, _⟩ := family.parent q used notInit
    refine ⟨r, (others q here).2.1.trans parent, ?_⟩
    rw [(others r (alive r live)).1]
    exact live
  · intro m i w listed
    obtain ⟨before, top, worker⟩ := lists m i w listed
    rw [(others m top).2.1, (others w worker).2.1]
    exact family.group m i w before

/-- Everybody whom `wait` reclaims is dead and in the group of the child. -/
theorem wait_dead {c : Nat} (grouped : Grouped k.proc) (found : k.deadChild p = some c)
    (leaves : q = c ∨ q ∈ k.workers c) : (k.proc q).state = .zombie := by
  have zombie := (deadChild_spec found).2.2.2
  rcases leaves with isChild | worker
  · rw [isChild, zombie]
  · obtain ⟨i, listed⟩ := grouped.mem_workers.mp worker
    exact grouped.dead c i q listed zombie

section

variable (family : Family k since) (grouped : Grouped k.proc) (live : Live (k.proc p).state)
include family grouped live

theorem family_wait {progress : Progress} (ran : wait k p = .ok (t, progress)) :
    Family t (note k t since) := by
  have initproc := wait_initproc grouped ran
  cases found : k.deadChild p with
  | none =>
    rcases wait_missed found ran with same | same
    · rw [same]
      exact family.moves rfl (fun _ => .inl rfl) fun _ => ⟨rfl, rfl, rfl, rfl⟩
    · apply family.set initproc (congrArg Kernel.proc same) live
      · exact .inr (.inr rfl)
      · exact ⟨rfl, rfl, rfl, rfl⟩
  | some c =>
    obtain ⟨gone, others⟩ := wait_found grouped found ran
    have after := grouped_wait grouped live ran
    apply family.reclaims (fun q => q = c ∨ q ∈ k.workers c) initproc
    · exact fun q leaves => ⟨wait_dead grouped found leaves, (gone q leaves).1⟩
    · intro q stays
      rw [others q stays]
      exact ⟨rfl, rfl, rfl, rfl⟩
    · intro m i w listed
      have top : ¬ (m = c ∨ m ∈ k.workers c) :=
        fun leaves => (after.top m i w listed).1.1 (gone m leaves).1
      have worker : ¬ (w = c ∨ w ∈ k.workers c) :=
        fun leaves => (after.list m i w listed).2.1 (gone w leaves).1
      rw [others m top] at listed
      exact ⟨listed, top, worker⟩
    · intro i _ stays
      rw [others i stays]

theorem family_joinLoop {join : Nat} {progress : Progress}
    (ran : joinLoop k p join = .ok (t, progress)) :
    Family t (note k t since) := by
  have after := grouped_joinLoop grouped live ran
  obtain ⟨initproc, ⟨_, _, proc⟩ | ⟨_, resized⟩ |
      ⟨master, zombie, link, held, _, others, top, own⟩⟩ :=
    joinLoop_table grouped ran
  · apply family.set initproc proc live
    · exact .inr (.inr rfl)
    · exact ⟨rfl, rfl, rfl, rfl⟩
  · apply family.moves initproc
    · exact fun q => .inl (resized q).ties.2
    · intro q
      obtain ⟨sz, free, same⟩ := resized q
      rw [same]
      exact ⟨rfl, rfl, rfl, rfl⟩
  have unused : (t.proc join).state = .unused := by
    rw [own]
  apply family.reclaims (fun q => q = join) initproc
  · intro q here
    rw [here]
    exact ⟨zombie, unused⟩
  · intro q other
    by_cases isMaster : q = master
    · obtain ⟨sz, free, same⟩ := top
      rw [isMaster, same]
      exact ⟨rfl, rfl, rfl, rfl⟩
    · rw [others q other isMaster]
      exact ⟨rfl, rfl, rfl, rfl⟩
  · intro m i w listed
    have notJoin : m ≠ join := by
      intro equal
      have settled := (after.top m i w listed).1.1
      rw [equal] at settled
      exact settled unused
    have worker : w ≠ join := by
      intro equal
      have used := (after.list m i w listed).2.1
      rw [equal] at used
      exact used unused
    refine ⟨?_, notJoin, worker⟩
    by_cases isMaster : m = master
    · rw [isMaster, top.ties.1.workerthread] at listed
      change update (k.proc master).workerthread (k.proc join).tindex none i = some w at listed
      rw [update_apply] at listed
      split at listed
      · cases listed
      · rw [isMaster]
        exact listed
    · rw [others m notJoin isMaster] at listed
      exact listed
  · -- init lists nobody, so it is not the master
    intro i isInit other
    obtain ⟨init, isInit', _, _, empty⟩ := family.init
    rw [isInit] at isInit'
    cases isInit'
    have notMaster : i ≠ master := by
      intro equal
      rw [← equal, empty] at held
      cases held
    rw [others i other notMaster]

end

theorem kill_parent (k : Kernel) (pid q : Nat) :
    ((kill k pid).1.proc q).parent = (k.proc q).parent := by
  obtain ⟨_, _, same, _⟩ := kill_slot k pid q
  rw [same]

theorem family_step {event : Event} (base : Base s.m.k s.m.cpu) (family : Family s.m.k s.since)
    (careful : Careful s event) (moved : step s event = some next) :
    Family next.m.k next.since := by
  obtain ⟨m, taken, same⟩ := map_eq_some_iff.mp moved
  rw [← same]
  clear moved same
  have grouped := base.grouped
  cases did_of_step taken with
  | fork onCpu ran => exact family_fork family grouped (base.live onCpu) ran
  | threadCreate onCpu ran =>
    exact family_thread_create family grouped (base.live onCpu) careful ran
  | @threadExit p _ _ onCpu ran =>
    obtain ⟨link, ran⟩ | ⟨master, link⟩ := thread_exit_cases ran
    · exact family_exit family grouped (base.live onCpu) (careful link).2 ran
    exact family_thread_exit family grouped (base.live onCpu) link ran
  | joinFree => exact family.moves rfl (fun _ => .inl rfl) fun _ => ⟨rfl, rfl, rfl, rfl⟩
  | threadJoin onCpu _ looks | joinAgain onCpu _ looks =>
    dsimp only
    rw [join_kernel]
    exact family_joinLoop family grouped (base.live onCpu) looks
  | exit onCpu ran => exact family_exit family grouped (base.live onCpu) careful.2 ran
  | wait onCpu ran => exact family_wait family grouped (base.live onCpu) ran
  | @exec p _ _ t _ onCpu ran =>
    obtain ⟨initproc, others, pgdir, sz, own⟩ := exec_table ran
    have kept : ∀ q, (t.proc q).state = (s.m.k.proc q).state ∧
        (t.proc q).parent = (s.m.k.proc q).parent ∧ (t.proc q).pid = (s.m.k.proc q).pid ∧
        (t.proc q).master = (s.m.k.proc q).master ∧
        (t.proc q).workerthread = (s.m.k.proc q).workerthread := by
      intro q
      by_cases here : q = p
      · rw [here, own]
        exact ⟨rfl, rfl, rfl, rfl, rfl⟩
      · rw [others q here]
        exact ⟨rfl, rfl, rfl, rfl, rfl⟩
    exact family.moves initproc (fun q => .inl (kept q).1) fun q => (kept q).2
  | @sbrk p n t _ onCpu ran =>
    obtain ⟨initproc, resized⟩ := growproc_resized ran
    apply family.moves initproc
    · exact fun q => .inl (resized q).ties.2
    intro q
    obtain ⟨sz, free, same⟩ := resized q
    show ((t.proc q).parent = _ ∧ (t.proc q).pid = _ ∧ (t.proc q).master = _ ∧
      (t.proc q).workerthread = _)
    rw [same]
    exact ⟨rfl, rfl, rfl, rfl⟩
  | @kill pid =>
    exact family.woken (kill_only s.m.k pid).memory.initproc (kill_ties s.m.k pid)
      (fun q => kill_steady q)
      (kill_parent s.m.k pid)
  | dispatch ready _ =>
    exact family.set rfl rfl (.inl ready) (.inr (.inl rfl)) ⟨rfl, rfl, rfl, rfl⟩
  | yield onCpu =>
    exact family.set rfl rfl (base.live onCpu) (.inl rfl) ⟨rfl, rfl, rfl, rfl⟩
  | sleep onCpu =>
    exact family.set rfl rfl (base.live onCpu) (.inr (.inr rfl)) ⟨rfl, rfl, rfl, rfl⟩
  | @wakeup chan =>
    apply family.woken
    · rfl
    · exact fun q => (wakeup1_ties s.m.k chan q).1
    · exact fun q => (wakeup1_bystander 0 s.m.k chan q).steady
    · exact wakeup1_parent s.m.k chan

/-- The invariant of runs. -/
structure Good (s : Sys) : Prop where
  base : Base s.m.k s.m.cpu
  family : Family s.m.k s.since

theorem good_step {event : Event} (good : Good s) (careful : Careful s event)
    (moved : step s event = some next) : Good next := by
  have family := family_step good.base good.family careful moved
  obtain ⟨m, taken, same⟩ := map_eq_some_iff.mp moved
  cases same
  exact ⟨base_step good.base careful.gentle taken, family⟩

def Sys.start (k : Kernel) : Sys := ⟨Machine.start k, fun _ => none⟩

theorem good_start {mem : Vm.Mem} {code : Nat → UInt8} (nodup : mem.freelist.Nodup)
    (booted : userinit (Kernel.boot mem) code = .ok k) : Good (Sys.start k) := by
  obtain ⟨consistent, init, inside, isInit, ready, root, others⟩ :=
    consistent_userinit [] nodup booted
  have only : ∀ q, (k.proc q).state ≠ .unused → q = init :=
    fun q used => by_contra fun other => used (others q other)
  have nobody : ∀ m i w, (k.proc m).workerthread i ≠ some w := by
    intro m i w listed
    have master := only m (consistent.grouped.top m i w listed).1.1
    have worker := only w (consistent.grouped.list m i w listed).2.1
    exact consistent.grouped.ne_master listed (worker.trans master.symm)
  refine ⟨base_start nodup booted, ?_, ⟨init, isInit, ?_, root, ?_⟩, ?_, ?_⟩
  · intro q used
    rw [only q used]
    exact inside
  · rw [show ((Sys.start k).m.k.proc init).state = .runnable from ready]
    exact .inl rfl
  · exact fun j => eq_none_iff_forall_ne_some.mpr (nobody init j)
  · intro q used notInit
    rw [only q used] at notInit
    exact absurd isInit notInit
  · exact fun m i w listed => absurd listed (nobody m i w)

/-- Everybody but init has a parent that is alive and is the process it was when the link was
set. -/
def WellFormed (s : Sys) : Prop :=
  ∀ p, (s.m.k.proc p).state ≠ .unused → s.m.k.initproc ≠ some p →
    ∃ q, (s.m.k.proc p).parent = some q ∧ Live (s.m.k.proc q).state ∧
      s.since p = some (s.m.k.proc q).pid

/-- The parent of a dead process finds a child in `wait`, and `wait` takes nobody else's
children. -/
def Reaped (s : Sys) : Prop :=
  (∀ p, (s.m.k.proc p).state = .zombie → (s.m.k.proc p).master = none →
    ∃ q, (s.m.k.proc p).parent = some q ∧ (s.m.k.deadChild q).isSome) ∧
  ∀ q t progress, wait s.m.k q = .ok (t, progress) → ∀ p, (s.m.k.proc p).state ≠ .unused →
    (t.proc p).state = .unused → (s.m.k.proc p).parent = some q ∧
      s.since p = some (s.m.k.proc q).pid

theorem Good.wellFormed (good : Good s) : WellFormed s := good.family.parent

theorem Good.reaped (good : Good s) : Reaped s := by
  obtain ⟨init, isInit, initLive, _⟩ := good.family.init
  have notInit : ∀ p, (s.m.k.proc p).state = .zombie → s.m.k.initproc ≠ some p := by
    intro p zombie same
    rw [isInit] at same
    cases same
    rw [zombie] at initLive
    exact not_live_zombie initLive
  constructor
  · intro p zombie root
    have used : (s.m.k.proc p).state ≠ .unused := by
      rw [zombie]
      exact ProcState.noConfusion
    obtain ⟨q, parent, _⟩ := good.family.parent p used (notInit p zombie)
    refine ⟨q, parent, ?_⟩
    by_contra missed
    rw [not_isSome_iff_eq_none] at missed
    have bound := good.family.inside p used
    have unwanted := Scan.first_eq_none missed p (Nat.zero_le p) (by omega)
    simp [Kernel.isChild, parent, root, zombie] at unwanted
  · intro q t progress ran p used gone
    cases found : s.m.k.deadChild q with
    | none =>
      exfalso
      rcases wait_missed found ran with same | same
      · rw [same] at gone
        exact used gone
      · rw [same, setProc_proc, update_apply] at gone
        split at gone
        · cases gone
        · exact used gone
    | some c =>
      obtain ⟨_, parent, _, _⟩ := deadChild_spec found
      have leaves : p = c ∨ p ∈ s.m.k.workers c := by
        by_contra stays
        rw [(wait_found good.base.grouped found ran).2 p stays] at gone
        exact used gone
      have mine : (s.m.k.proc p).parent = some q := by
        rcases leaves with isChild | worker
        · rw [isChild, parent]
        · obtain ⟨i, _, listed⟩ := mem_workers.mp worker
          rw [good.family.group c i p listed, parent]
      obtain ⟨r, parent', _, recorded⟩ :=
        good.family.parent p used (notInit p (wait_dead good.base.grouped found leaves))
      rw [mine] at parent'
      cases parent'
      exact ⟨mine, recorded⟩

/-- In a run from boot in which init makes no threads, groups end while no other member is on a CPU
and no worker has children, and `fork` takes no slot that names a master, everybody has the parent
that was set, and `wait` reaps the caller's children only. -/
theorem parent_is_same_process {mem : Vm.Mem} {code : Nat → UInt8} {events : List Event}
    {last : Sys} (nodup : mem.freelist.Nodup) (booted : userinit (Kernel.boot mem) code = .ok k)
    (careful : Run.Steps step Careful (Sys.start k) events)
    (run : Run.exec step (Sys.start k) events = some last) : WellFormed last ∧ Reaped last := by
  have good : Good last := Run.exec_invariant Good
    (fun _ _ _ good careful moved => good_step good careful moved) (good_start nodup booted) careful
      run
  exact ⟨good.wellFormed, good.reaped⟩

instance (s : Sys) (event : Event) : Decidable (Careful s event) := by
  rcases event <;> dsimp only [Careful] <;> infer_instance

/-- Init forks a child, which makes a thread, and the thread forks. -/
def forkingThread : List Event :=
  [.dispatch 0, .fork 0, .dispatch 1, .threadCreate 1 0, .dispatch 2, .fork 2, .yield 2]

/-- The thread reaps its child, exits and is joined before its group ends. -/
def orderly : List Event :=
  forkingThread ++ [.dispatch 3, .exit 3, .dispatch 2, .wait 2, .threadExit 2 7,
      .threadJoin 1 3, .exit 1,
    .wait 0]

theorem parent_is_same_process_small : ∃ k last,
    userinit (Kernel.boot smallMem) (fun _ => 0) = .ok k ∧
    Run.Steps step Careful (Sys.start k) orderly ∧
    Run.exec step (Sys.start k) orderly = some last ∧ WellFormed last ∧ Reaped last := by
  obtain ⟨k, last, booted, ends, careful⟩ := run_small step Sys.start orderly
    (fun k _ => Run.Steps step Careful (Sys.start k) orderly) (by decide +kernel)
  exact ⟨k, last, booted, careful, ends, parent_is_same_process smallMem_nodup booted careful ends⟩

/-- The state after a run from boot on the small machine. -/
def afterBoot (events : List Event) : Option Sys :=
  bootSmall.bind fun k => Run.exec step (Sys.start k) events

/-- The group of the thread ends, and its parent waits for it. -/
def orphaned : List Event := forkingThread ++ [.exit 1, .wait 0]

/-- Init forks into the slots of the group, and the child of the thread exits. -/
def adopted : List Event := orphaned ++ [.fork 0, .fork 0, .dispatch 3, .exit 3, .dispatch 2]

/-- The child of the thread is left with a parent that is unused. The next process in that slot,
which is not its parent, reaps it. -/
theorem worker_child_dangles :
    (afterBoot orphaned).map (fun s => ((s.m.k.proc 3).state, (s.m.k.proc 3).parent,
      (s.m.k.proc 2).state)) = some (.runnable, some 2, .unused) ∧
    (afterBoot adopted).bind (fun s => (step s (.wait 2)).map fun next =>
      ((s.m.k.proc 3).parent, s.since 3, (s.m.k.proc 2).pid, (s.m.k.proc 3).state,
        (next.m.k.proc 3).state)) = some (some 2, some 3, 6, .zombie, .unused) := by
  decide +kernel

end Xv6.Process.Parents
