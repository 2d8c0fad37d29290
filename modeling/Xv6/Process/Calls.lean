import Xv6.Process.Exec

/- A machine whose processes make calls, each of them one step. Who is on a CPU is recorded apart
from the state, since `exit` by another member of the group changes the state of a process that runs
on. -/
namespace Xv6.Process.Calls

open Function Outcome Vm Option

/-- `joining p` is the slot that `p` looks at in `thread_join`. -/
structure Machine where
  k : Kernel
  cpu : Nat → Bool
  joining : Nat → Option Nat

inductive Event where
  | fork (p : Nat)
  | threadCreate (p arg : Nat)
  | threadExit (p retval : Nat)
  | threadJoin (p thread : Nat)
  | joinAgain (p : Nat)
  | exit (p : Nat)
  | wait (p : Nat)
  | exec (p : Nat) (file : Option (List UInt8)) (argv : List (List UInt8))
  | sbrk (p : Nat) (n : Int)
  | kill (pid : Nat)
  | dispatch (p : Nat)
  | yield (p : Nat)
  | sleep (p : Nat) (chan : Option Chan)
  | wakeup (chan : Option Chan)

/-- Whether the caller runs on. -/
def runs : Progress → Bool
  | .returned _ => true
  | .sleeps => false

/-- A call by a process that is on a CPU and in no other call. -/
def Machine.call (m : Machine) (p : Nat) (outcome : Except Stop (Kernel × Bool)) : Option Machine :=
  if m.cpu p ∧ m.joining p = none then
    outcome.toOption.map fun (k, runs) => { m with k := k, cpu := update m.cpu p runs }
  else none

/-- The process in the slot that is claimed next is in no call. -/
def Machine.clean (m : Machine) : Machine :=
  match m.k.unusedSlot with
  | none => m
  | some np => { m with joining := update m.joining np none }

/-- The end of one round of `thread_join` by `p` for a slot. -/
def Machine.join (m : Machine) (p : Nat) (slot : Option Nat) (k : Kernel) : Progress → Machine
  | .returned _ => { m with k := k, joining := update m.joining p none }
  | .sleeps => { m with
      k := k
      cpu := update m.cpu p false
      joining := update m.joining p slot }

/-- `sched` in `yield` and `sleep`. -/
def Machine.leave (m : Machine) (p : Nat) (new : Proc) : Machine :=
  { m with k := m.k.setProc p new, cpu := update m.cpu p false }

def step (m : Machine) : Event → Option Machine
  | .fork p => m.clean.call p ((fork m.k p).map fun (k, _) => (k, true))
  | .threadCreate p arg => m.clean.call p ((thread_create m.k p arg).map fun (k, _) => (k, true))
  | .threadExit p retval => m.call p ((thread_exit m.k p retval).map fun k => (k, false))
  | .threadJoin p thread =>
    if m.cpu p ∧ m.joining p = none then
      (thread_join m.k p thread).toOption.map fun (k, progress) =>
        m.join p (m.k.slotOf thread) k progress
    else none
  | .joinAgain p =>
    (m.joining p).bind fun join =>
      if m.cpu p then
        (joinLoop m.k p join).toOption.map fun (k, progress) => m.join p (some join) k progress
      else none
  | .exit p => m.call p ((exit m.k p).map fun k => (k, false))
  | .wait p => m.call p ((wait m.k p).map fun (k, progress) => (k, runs progress))
  | .exec p file argv => m.call p ((exec m.k p file argv).map fun (k, _) => (k, true))
  | .sbrk p n => m.call p ((growproc m.k p n).map fun (k, _) => (k, true))
  | .kill pid => some { m with k := (kill m.k pid).1 }
  | .dispatch p =>
    if (m.k.proc p).state = .runnable ∧ m.cpu p = false then
      some { m with
        k := m.k.setProc p { m.k.proc p with state := .running }
        cpu := update m.cpu p true }
    else none
  | .yield p => if m.cpu p then some (m.leave p { m.k.proc p with state := .runnable }) else none
  | .sleep p chan =>
    if m.cpu p then some (m.leave p { m.k.proc p with chan := chan, state := .sleeping }) else none
  | .wakeup chan => some { m with k := wakeup1 m.k chan }

/-- Nobody is on a CPU. -/
def Machine.start (k : Kernel) : Machine := ⟨k, fun _ => false, fun _ => none⟩

/-- The members of a group. -/
def members (k : Kernel) (p : Nat) : List Nat := k.masterOf p :: k.workers (k.masterOf p)

/-- No other member of the group of `p` is on a CPU. -/
def Machine.Alone (m : Machine) (p : Nat) : Prop := ∀ q ∈ members m.k p, q ≠ p → m.cpu q = false

instance (m : Machine) (p : Nat) : Decidable (m.Alone p) :=
  inferInstanceAs (Decidable (∀ q ∈ members m.k p, q ≠ p → m.cpu q = false))

/-- The slot that `fork` takes names no master. -/
def Unlinked (k : Kernel) : Prop := ∀ np ∈ k.unusedSlot, (k.proc np).master = none

instance (k : Kernel) : Decidable (Unlinked k) :=
  inferInstanceAs (Decidable (∀ np ∈ k.unusedSlot, (k.proc np).master = none))

variable {m next : Machine} {k t u : Kernel} {p q np : Nat}
    {made : Option Nat} {done : Bool} {progress : Progress} {arg : Nat} {n : Int} {new : Proc}
    {event : Event}

theorem call_eq_some {outcome : Except Stop (Kernel × Bool)}
    (taken : m.call p outcome = some next) :
    m.cpu p = true ∧ m.joining p = none ∧ ∃ k runs, outcome = .ok (k, runs) ∧
      next = { m with k := k, cpu := update m.cpu p runs } := by
  obtain ⟨⟨running, out⟩, taken⟩ := ite_none_right_eq_some.mp taken
  obtain ⟨⟨k, runs⟩, ran, same⟩ := map_eq_some_iff.mp taken
  exact ⟨running, out, k, runs, toOption_eq_some.mp ran, same.symm⟩

theorem join_eq_some {thread : Nat} (taken : step m (.threadJoin p thread) = some next) :
    m.cpu p = true ∧ m.joining p = none ∧ ∃ k progress,
      thread_join m.k p thread = .ok (k, progress) ∧
      next = m.join p (m.k.slotOf thread) k progress := by
  obtain ⟨⟨running, out⟩, taken⟩ := ite_none_right_eq_some.mp taken
  obtain ⟨⟨k, progress⟩, ran, same⟩ := map_eq_some_iff.mp taken
  exact ⟨running, out, k, progress, toOption_eq_some.mp ran, same.symm⟩

theorem joinAgain_eq_some (taken : step m (.joinAgain p) = some next) :
    m.cpu p = true ∧ ∃ join k progress, m.joining p = some join ∧
      joinLoop m.k p join = .ok (k, progress) ∧ next = m.join p (some join) k progress := by
  obtain ⟨join, waits, taken⟩ := bind_eq_some_iff.mp taken
  obtain ⟨running, taken⟩ := ite_none_right_eq_some.mp taken
  obtain ⟨⟨k, progress⟩, ran, same⟩ := map_eq_some_iff.mp taken
  exact ⟨running, join, k, progress, waits, toOption_eq_some.mp ran, same.symm⟩

/-- The record of a new thread. -/
def hired (k : Kernel) (master np frame i sz : Nat) (state : ProcState) : Proc :=
  { recruit { k.proc np with pid := k.nextpid } (k.proc master) frame master i with
    sz := sz, state := state }

/-- What a call of `thread_create` did: there was no slot, or no kernel stack, or a thread was
listed, with a stack or without. -/
inductive Created (k : Kernel) (master : Nat) (t : Kernel) (made : Option Nat) : Prop
  | noSlot (full : k.unusedSlot = none) (failed : made = none) (same : t = k)
  | noPage (np : Nat) (found : k.unusedSlot = some np) (empty : k.mem.freelist = [])
      (failed : made = none)
      (same : t = (k.claim np).setProc np { (k.claim np).proc np with
        kstack := none, state := .unused })
  | listed (np i d frame sz : Nat) (mem mem' : Mem) (dir dir' dir'' : Pgdir) (top : Proc)
      (state : ProcState) (found : k.unusedSlot = some np) (page : kalloc k.mem = (mem, some frame))
      (inside : i < NTHRE) (free : (k.proc master).workerthread i = none)
      (pgdir : (k.proc master).pgdir = some d) (present : k.pgdirs d = some dir)
      (grown : allocuvm mem dir (stackStart (k.proc master))
        (stackStart (k.proc master) + 2 * PGSIZE) = .ok (mem', dir', sz))
      (stack : sz = 0 ∧ dir'' = dir' ∧ top = enlist (k.proc master) i np ∧
        state = .embryo ∧ made = none ∨
        sz ≠ 0 ∧ clearpteu dir' ((sz - 2 * PGSIZE) / PGSIZE) = .ok dir'' ∧
          top = lend (enlist (k.proc master) i np) sz ∧
          (state = .embryo ∧ made = none ∨ state = .runnable ∧ made = some np))
      (freelist : t.mem.freelist = mem'.freelist)
      (pgdirs : t.pgdirs = update k.pgdirs d (some dir''))
        (kept : t.initproc = k.initproc ∧ t.nextpid = k.nextpid + 1)
      (proc : t.proc = update (update k.proc master top) np (hired k master np frame i sz state))

theorem created_of_thread_create
    (used : (k.proc (k.masterOf p)).state ≠ .unused)
    (ran : thread_create k p arg = .ok (t, made)) : Created k (k.masterOf p) t made := by
  rcases thread_create_eq ran with ⟨full, failed, same⟩ |
    ⟨np, found, ⟨failed, allocated⟩ | ⟨u, allocated, rest⟩⟩
  · exact .noSlot full failed same
  · have noPage := allocthreadRest_false allocated
    exact .noPage np found (allocStack_false noPage).2 failed (allocStack_false noPage).1
  generalize k.masterOf p = master at *
  have different : np ≠ master := by
    intro equal
    rw [← equal] at used
    exact used (unusedSlot_spec found).2
  obtain ⟨m, frame, i, page, inside, free, isListed⟩ := allocthreadRest_eq_true allocated different
  obtain ⟨v, done, mem, worked, kept, ends⟩ := threadRest_eq rest
  obtain ⟨d, dir, mem', dir', sz, pgdir, present, grown, stacked⟩ :=
    allocusrstack_eq worked different
  have claimed : (k.claim np).proc master = k.proc master := by
    rw [claim_proc, update_of_ne different.symm]
  have new : (k.claim np).proc np = { k.proc np with state := .embryo, pid := k.nextpid } := by
    rw [claim_proc, update_self]
  rw [claimed] at free
  rw [claimed, new] at isListed
  have table : u.proc = update (update k.proc master (enlist (k.proc master) i np)) np
      (hired k master np frame i (k.proc np).sz .embryo) := by
    rw [isListed, setProc_proc, setProc_proc, setMem_proc, claim_proc, update_comm different,
      update_idem]
    rfl
  have top : u.proc master = enlist (k.proc master) i np := by
    rw [table, update_of_ne different.symm, update_self]
  have own : u.proc np = hired k master np frame i (k.proc np).sz .embryo := by
    rw [table, update_self]
  have counted : u.initproc = k.initproc ∧ u.nextpid = k.nextpid + 1 := isListed ▸ ⟨rfl, rfl⟩
  have pgdirs : u.pgdirs = k.pgdirs := isListed ▸ rfl
  have freelist : u.mem = m := isListed ▸ rfl
  rw [top] at pgdir grown stacked
  rw [own] at stacked
  rw [pgdirs] at present
  rw [freelist] at grown
  rcases stacked with ⟨isFalse, rfl, result⟩ | ⟨_, positive, dir'', guarded, result⟩
  · rcases ends with ⟨failed, same⟩ | ⟨worked, _⟩
    · refine .listed np i d frame 0 m mem' dir dir' dir' _ .embryo found page inside free
        pgdir present grown
        (.inl ⟨rfl, rfl, rfl, rfl, failed⟩) ?_ ?_ ?_ ?_
      · rw [same]
        exact kept.trans (by rw [result]; rfl)
      · rw [same, result, ← pgdirs]
        rfl
      · rw [same, result]
        exact counted
      · rw [same, result, setMem_proc, setProc_proc, setDir_proc, setMem_proc, table, update_idem]
        rfl
    · rw [isFalse] at worked
      cases worked
  · have stored : ∀ new, update (update u.proc master
        (lend (enlist (k.proc master) i np) sz)) np new = update (update k.proc master
          (lend (enlist (k.proc master) i np) sz)) np new := by
      intro new
      rw [table, update_comm different, update_idem, update_idem]
    have isMem : mem.freelist = mem'.freelist := kept.trans (by rw [result]; rfl)
    rcases ends with ⟨failed, same⟩ | ⟨_, worked, same⟩
    · refine .listed np i d frame sz m mem' dir dir' dir'' _ .embryo found page inside
        free pgdir present
        grown (.inr ⟨positive, guarded, rfl, .inl ⟨rfl, failed⟩⟩) (same ▸ isMem) ?_ ?_ ?_
      · rw [same, result, ← pgdirs]
        rfl
      · rw [same, result]
        exact counted
      · rw [same, result]
        exact stored _
    · refine .listed np i d frame sz m mem' dir dir' dir'' _ .runnable found page inside
        free pgdir present
        grown (.inr ⟨positive, guarded, rfl, .inr ⟨rfl, worked⟩⟩) (same ▸ isMem) ?_ ?_ ?_
      · rw [same, result, ← pgdirs]
        rfl
      · rw [same, result]
        exact counted
      · rw [same, setProc_proc, setMem_proc, result, setProc_proc, update_self,
          update_idem]
        exact stored _

theorem thread_create_table
    (used : (k.proc (k.masterOf p)).state ≠ .unused) (ran : thread_create k p arg = .ok (t, made)) :
    t = k ∧ made = none ∨ t.initproc = k.initproc ∧ t.nextpid = k.nextpid + 1 ∧
      ∃ np, k.unusedSlot = some np ∧ (made = none ∧ t.proc = update k.proc np { k.proc np with
          pid := k.nextpid, kstack := none, state := .unused } ∨
        ∃ i frame sz top state, i < NTHRE ∧ (k.proc (k.masterOf p)).workerthread i = none ∧
          Resized (enlist (k.proc (k.masterOf p)) i np) top ∧
          (state = .embryo ∧ made = none ∨ state = .runnable ∧ made = some np) ∧
          t.proc = update (update k.proc (k.masterOf p) top) np
            (hired k (k.masterOf p) np frame i sz state)) := by
  cases created_of_thread_create used ran with
  | noSlot _ failed same => exact .inl ⟨same, failed⟩
  | noPage np found _ failed same =>
    rw [same, setProc_proc, claim_proc, update_idem, update_self]
    exact .inr ⟨rfl, rfl, np, found, .inl ⟨failed, rfl⟩⟩
  | listed np i d frame sz mem mem' dir dir' dir'' top state found _ inside free _ _ _ stack _
      _ kept proc =>
    refine .inr ⟨kept.1, kept.2, np, found,
      .inr ⟨i, frame, sz, top, state, inside, free, ?_, ?_, proc⟩⟩
    · rcases stack with ⟨_, _, rfl, _⟩ | ⟨_, _, rfl, _⟩
      · exact Resized.refl _
      · exact lend_resized _ _
    · rcases stack with ⟨_, _, _, failed⟩ | ⟨_, _, _, ends⟩
      · exact .inl failed
      · exact ends

/-- The size that `growproc` asks for. -/
def grown (sz : Nat) (n : Int) : Nat := (((sz : Int) + n) % 2 ^ 32).toNat

theorem growproc_eq (ran : growproc k p n = .ok (t, done)) :
    done = true ∧ t = k ∨
    ∃ d dir mem dir' sz, (k.proc (k.masterOf p)).pgdir = some d ∧ k.pgdirs d = some dir ∧
      (0 < n ∧ allocuvm k.mem dir (k.proc (k.masterOf p)).sz
          (grown (k.proc (k.masterOf p)).sz n) = .ok (mem, dir', sz) ∨
        n < 0 ∧ deallocuvm k.mem dir (k.proc (k.masterOf p)).sz
          (grown (k.proc (k.masterOf p)).sz n) = .ok (mem, dir', sz)) ∧
      (done = false ∧ sz = 0 ∧ t = (k.setMem mem).setDir d (some dir') ∨
        done = true ∧ sz ≠ 0 ∧ t = ((k.setMem mem).setDir d (some dir')).setProc (k.masterOf p)
          { k.proc (k.masterOf p) with sz := sz }) := by
  unfold growproc at ran
  dsimp only at ran
  split at ran
  · cases ran
    exact .inl ⟨rfl, rfl⟩
  rename_i nonzero
  right
  obtain ⟨⟨d, dir⟩, directory, ran⟩ := bind_eq_ok.mp ran
  obtain ⟨pgdir, present⟩ := dir_eq_ok.mp directory
  have ends : ∀ {sz : Nat} {failed worked : Kernel},
      (if sz = 0 then .ok (failed, false) else .ok (worked, true) : Except Stop (Kernel × Bool)) =
        .ok (t, done) → done = false ∧ sz = 0 ∧ t = failed ∨ done = true ∧ sz ≠ 0 ∧ t = worked := by
    intro sz failed worked result
    split at result
    · rename_i zero
      cases result
      exact .inl ⟨rfl, zero, rfl⟩
    · rename_i positive
      cases result
      exact .inr ⟨rfl, positive, rfl⟩
  dsimp only at ran
  split at ran
  · rename_i positive
    obtain ⟨⟨mem, dir', sz⟩, worked, ran⟩ := bind_eq_ok.mp ran
    exact ⟨d, dir, mem, dir', sz, pgdir, present, .inl ⟨positive, worked⟩, ends ran⟩
  · obtain ⟨⟨mem, dir', sz⟩, worked, ran⟩ := bind_eq_ok.mp ran
    exact ⟨d, dir, mem, dir', sz, pgdir, present, .inr ⟨by omega, worked⟩, ends ran⟩

/-- A group ends while no other member is on a CPU, and `fork` takes no slot that names a master. -/
def Gentle (m : Machine) : Event → Prop
  | .fork _ => Unlinked m.k
  | .threadExit p _ => (m.k.proc p).master = none → m.Alone p
  | .exit p => m.Alone p
  | _ => True

instance (m : Machine) (event : Event) : Decidable (Gentle m event) := by
  rcases event <;> dsimp only [Gentle] <;> infer_instance

/-- The groups are in order, who is on a CPU is running, and a slot that is being set up is
listed. -/
structure Base (k : Kernel) (cpu : Nat → Bool) : Prop where
  grouped : Grouped k.proc
  running : ∀ p, cpu p = true → (k.proc p).state = .running
  embryo : ∀ p, (k.proc p).state = .embryo → ∃ i master, (k.proc master).workerthread i = some p

variable {cpu : Nat → Bool} {goes : Bool}

theorem Base.live (base : Base k cpu) (onCpu : cpu p = true) : Live (k.proc p).state :=
  .inr (.inl (base.running p onCpu))

theorem Base.turn (base : Base k cpu) (grouped : Grouped t.proc)
    (own : goes = true → (t.proc p).state = .running)
    (others : ∀ q, q ≠ p → cpu q = true → (t.proc q).state = (k.proc q).state)
    (embryo : ∀ q, (t.proc q).state = .embryo → ∃ i master,
      (t.proc master).workerthread i = some q) :
    Base t (update cpu p goes) := by
  refine ⟨grouped, ?_, embryo⟩
  intro q onCpu
  by_cases here : q = p
  · rw [here, update_self] at onCpu
    rw [here]
    exact own onCpu
  · rw [update_of_ne here] at onCpu
    rw [others q here onCpu]
    exact base.running q onCpu

/-- Live processes go from state to state, and only the caller is changed among those that run. -/
theorem Base.moves (base : Base k cpu) (ties : ∀ q, SameTies (k.proc q) (t.proc q))
    (moves : ∀ q, Moves (k.proc q).state (t.proc q).state)
    (own : goes = true → (t.proc p).state = .running)
    (others : ∀ q, q ≠ p → cpu q = true → (t.proc q).state = (k.proc q).state) :
    Base t (update cpu p goes) := by
  apply base.turn (base.grouped.moves ties moves) own others
  intro q embryo
  obtain ⟨i, master, listed⟩ := base.embryo q ((moves q).embryo.mp embryo)
  rw [← (ties master).workerthread] at listed
  exact ⟨i, master, listed⟩

section

variable (base : Base k cpu) (onCpu : cpu p = true)
include base onCpu

theorem Base.same (same : t.proc = k.proc) : Base t (update cpu p true) := by
  apply base.moves
  · intro q
    rw [same]
    exact SameTies.refl _
  · intro q
    rw [same]
    exact .inl rfl
  · intro _
    rw [same]
    exact base.running p onCpu
  · intro q _ _
    rw [same]

theorem Base.used : (k.proc p).state ≠ .unused :=
  (base.live onCpu).settled.1

/-- A slot that was unused is filled or given back. -/
theorem Base.slot (unused : (k.proc np).state = .unused) (table : t.proc = update k.proc np new)
    (lists : new.workerthread = (k.proc np).workerthread)
    (root : Settled new.state → new.master = none) (ready : new.state ≠ .embryo) :
    Base t (update cpu p true) := by
  have old : ∀ q, (k.proc q).state ≠ .unused → t.proc q = k.proc q := by
    intro q used
    rw [table, update_of_ne]
    intro equal
    rw [equal] at used
    exact used unused
  have empty := base.grouped.empty_of_unsettled (p := np) fun settled => settled.1 unused
  apply base.turn
  · rw [table]
    apply base.grouped.slot (base.grouped.unlisted_of_unused unused) empty _ root
    rw [lists]
    exact empty
  · intro _
    rw [old p (base.used onCpu)]
    exact base.running p onCpu
  · intro q _ onCpu'
    rw [old q (base.used onCpu')]
  · intro q embryo
    have before : (k.proc q).state = .embryo := by
      rw [table, update_apply] at embryo
      split at embryo
      · exact absurd embryo ready
      · exact embryo
    obtain ⟨i, master, listed⟩ := base.embryo q before
    refine ⟨i, master, ?_⟩
    rw [old master (base.grouped.top master i q listed).1.1]
    exact listed

end

theorem base_fork (base : Base k cpu) (unlinked : Unlinked k) (onCpu : cpu p = true)
    (ran : fork k p = .ok (t, made)) : Base t (update cpu p true) := by
  obtain ⟨_, same | ⟨np, new, found, table, lists, master, state⟩⟩ := fork_table ran
  · exact base.same onCpu same
  apply base.slot onCpu (unusedSlot_spec found).2 table lists
  · intro _
    rw [master]
    exact unlinked np found
  · rcases state with unused | ⟨runnable, _⟩
    · rw [unused]
      exact ProcState.noConfusion
    · rw [runnable]
      exact ProcState.noConfusion

/-- A thread joins its group, ready to run or not. -/
theorem grouped_join_group {i frame sz : Nat} {top : Proc} {state : ProcState}
    (grouped : Grouped k.proc) (unused : (k.proc np).state = .unused) (live : Live (k.proc p).state)
    (inside : i < NTHRE) (free : (k.proc (k.masterOf p)).workerthread i = none)
    (resized : Resized (enlist (k.proc (k.masterOf p)) i np) top)
    (ready : state = .embryo ∨ state = .runnable)
    (proc : t.proc = update (update k.proc (k.masterOf p) top) np
      (hired k (k.masterOf p) np frame i sz state)) : Grouped t.proc := by
  obtain ⟨settled, root⟩ := grouped.masterOf live.settled
  have alive := grouped.masterOf_live live
  generalize k.masterOf p = master at *
  have different : np ≠ master := by
    intro equal
    rw [equal] at unused
    exact settled.1 unused
  have new : (k.claim np).proc np = { k.proc np with state := .embryo, pid := k.nextpid } := by
    rw [claim_proc, update_self]
  have before : (k.claim np).proc master = k.proc master := by
    rw [claim_proc, update_of_ne different.symm]
  rw [← before] at root settled alive free
  have joined : Grouped (enlisted (k.claim np).proc master np i frame) :=
    (grouped_claim grouped unused).enlist frame (by rw [new]) (unlisted_claim grouped unused) root
      settled
      alive inside free
  have listed : (enlisted (k.claim np).proc master np i frame master).workerthread i = some np := by
    rw [enlisted_list frame different free]
    exact .inl ⟨rfl, rfl, rfl⟩
  have same : ∀ q, q ≠ np → SameTies (enlisted (k.claim np).proc master np i frame q) (t.proc q) ∧
      (t.proc q).state = (enlisted (k.claim np).proc master np i frame q).state := by
    intro q other
    unfold enlisted
    rw [proc, update_of_ne other, update_of_ne other]
    by_cases isMaster : q = master
    · rw [isMaster, update_self, update_self, before]
      exact resized.ties
    · rw [update_of_ne isMaster, update_of_ne isMaster, claim_proc, update_of_ne other]
      exact ⟨SameTies.refl _, rfl⟩
  apply joined.start _ listed
  · intro q
    by_cases here : q = np
    · rw [here, enlisted_new, proc, update_self, new, before]
      exact ⟨rfl, rfl, rfl, rfl, rfl⟩
    · exact (same q here).1
  · exact fun q other => (same q other).2
  · rw [proc, update_self]
    exact ready
  · rw [enlisted_new, new]
    rfl

theorem base_thread_create (base : Base k cpu) (onCpu : cpu p = true)
    (ran : thread_create k p arg = .ok (t, made)) : Base t (update cpu p true) := by
  have live := base.live onCpu
  obtain ⟨settled, root⟩ := base.grouped.masterOf live.settled
  rcases thread_create_table settled.1 ran with ⟨rfl, _⟩ | ⟨_, _, np, found, ⟨_, table⟩ |
    ⟨i, frame, sz, top, state, inside, free, resized, outcome, proc⟩⟩
  · exact base.same onCpu rfl
  · apply base.slot onCpu (unusedSlot_spec found).2 table rfl
    · exact fun settled' => absurd rfl settled'.1
    · exact ProcState.noConfusion
  have unused := (unusedSlot_spec found).2
  have old : ∀ q, (k.proc q).state ≠ .unused → q ≠ np := by
    intro q used equal
    rw [equal] at used
    exact used unused
  have states : ∀ q, q ≠ np → (t.proc q).state = (k.proc q).state := by
    intro q isOld
    rw [proc, update_of_ne isOld, update_apply]
    split
    · rename_i isMaster
      rw [isMaster]
      exact resized.ties.2
    · rfl
  have head : (t.proc (k.masterOf p)).workerthread =
      update (k.proc (k.masterOf p)).workerthread i (some np) := by
    rw [proc, update_of_ne (old _ settled.1), update_self]
    exact resized.ties.1.workerthread
  apply base.turn
  · exact grouped_join_group base.grouped unused live inside free resized
      (outcome.imp And.left And.left) proc
  · intro _
    rw [states p (old p (base.used onCpu))]
    exact base.running p onCpu
  · intro q _ onCpu'
    exact states q (old q (base.used onCpu'))
  intro q embryo
  by_cases isNew : q = np
  · refine ⟨i, k.masterOf p, ?_⟩
    rw [isNew, head, update_self]
  rw [states q isNew] at embryo
  obtain ⟨j, master', listed⟩ := base.embryo q embryo
  refine ⟨j, master', ?_⟩
  by_cases isMaster : master' = k.masterOf p
  · rw [isMaster] at listed
    rw [isMaster, head, update_of_ne, listed]
    intro equal
    rw [equal, free] at listed
    cases listed
  · rw [proc, update_of_ne (old master' (base.grouped.top master' j q listed).1.1),
      update_of_ne isMaster]
    exact listed

theorem Base.ends {gone : Nat → Prop} {head : Nat} (base : Base k cpu) (ends : Ended gone head k t)
    (absent : ∀ q, gone q → q ≠ p → cpu q = false) : Base t (update cpu p false) := by
  apply base.turn (base.grouped.ends ends)
  · intro impossible
    cases impossible
  · intro q other onCpu
    refine (ends.others q fun leaves => ?_).running (base.running q onCpu)
    rw [absent q leaves other] at onCpu
    cases onCpu
  intro q embryo
  obtain ⟨i, master, listed⟩ := base.embryo q (ends.embryo embryo)
  refine ⟨i, master, ?_⟩
  rw [(ends.ties master).workerthread]
  exact listed

theorem base_exit (base : Base m.k m.cpu) (onCpu : m.cpu p = true) (alone : m.Alone p)
    (ran : exit m.k p = .ok t) : Base t (update m.cpu p false) :=
  base.ends (ended_exit base.grouped (base.live onCpu).settled ran)
    fun q leaves => alone q (List.mem_cons.mpr leaves)

theorem base_thread_exit {retval : Nat} (base : Base m.k m.cpu) (onCpu : m.cpu p = true)
    (alone : (m.k.proc p).master = none → m.Alone p)
    (ran : thread_exit m.k p retval = .ok t) : Base t (update m.cpu p false) := by
  obtain ⟨link, ran⟩ | ⟨master, link⟩ := thread_exit_cases ran
  · exact base_exit base onCpu (alone link) ran
  · exact base.ends (ended_thread_exit base.grouped (base.live onCpu) link ran)
      fun q here other => absurd here other

section

variable (base : Base k cpu) (onCpu : cpu p = true)
include base onCpu

theorem Base.sleep (proc : t.proc = update k.proc p new) (ties : SameTies (k.proc p) new)
    (live : Live new.state) : Base t (update cpu p false) := by
  have stored : t.proc = (k.setProc p new).proc := proc
  apply base.moves
  · intro q
    rw [stored]
    exact SameTies.set (SameTies.refl _) ties
  · intro q
    rw [stored]
    exact setProc_moves (.inr ⟨base.live onCpu, live⟩) q
  · intro impossible
    cases impossible
  · intro q other _
    rw [proc, update_of_ne other]

theorem base_wait (ran : wait k p = .ok (t, progress)) :
    Base t (update cpu p (runs progress)) := by
  have live := base.live onCpu
  rcases wait_eq ran with ⟨isNone, result⟩ | ⟨sleeps, result⟩ |
    ⟨c, _, _, _, _, _, found, _, _, _, _, _, isPid, _⟩
  · rw [isNone, result]
    exact base.same onCpu rfl
  · rw [sleeps, result]
    exact base.sleep onCpu (setProc_proc _ _ _) ⟨rfl, rfl, rfl, rfl, rfl⟩ (.inr (.inr rfl))
  rw [isPid]
  obtain ⟨gone, others⟩ := wait_found base.grouped found ran
  have zombie := (deadChild_spec found).2.2.2
  have dead : ∀ q, q = c ∨ q ∈ k.workers c → (k.proc q).state = .zombie := by
    rintro q (isChild | worker)
    · rw [isChild, zombie]
    · obtain ⟨i, listed⟩ := base.grouped.mem_workers.mp worker
      exact base.grouped.dead c i q listed zombie
  have stays : ∀ q, (k.proc q).state ≠ .zombie → t.proc q = k.proc q :=
    fun q alive => others q fun leaves => alive (dead q leaves)
  have runs : ∀ q, cpu q = true → t.proc q = k.proc q := by
    intro q onCpu'
    apply stays
    rw [base.running q onCpu']
    exact ProcState.noConfusion
  apply base.turn (grouped_wait base.grouped live ran)
  · intro _
    rw [runs p onCpu]
    exact base.running p onCpu
  · intro q _ onCpu'
    rw [runs q onCpu']
  intro q embryo
  have remains : t.proc q = k.proc q := by
    apply others q
    intro leaves
    rw [(gone q leaves).1] at embryo
    cases embryo
  rw [remains] at embryo
  obtain ⟨i, master, listed⟩ := base.embryo q embryo
  refine ⟨i, master, ?_⟩
  rw [stays master, listed]
  intro isZombie
  rw [base.grouped.dead master i q listed isZombie] at embryo
  cases embryo

theorem base_joinLoop {join : Nat} (ran : joinLoop k p join = .ok (t, progress)) :
    Base t (update cpu p (runs progress)) := by
  have grouped := grouped_joinLoop base.grouped (base.live onCpu) ran
  obtain ⟨_, ⟨sleeps, _, proc⟩ | ⟨isNone, resized⟩ |
    ⟨master, zombie, link, held, value, others, top, own⟩⟩ := joinLoop_table base.grouped ran
  · rw [sleeps]
    exact base.sleep onCpu proc ⟨rfl, rfl, rfl, rfl, rfl⟩ (.inr (.inr rfl))
  · rw [isNone]
    apply base.moves
    · exact fun q => (resized q).ties.1
    · exact fun q => .inl (resized q).ties.2
    · intro _
      rw [(resized p).ties.2]
      exact base.running p onCpu
    · exact fun q _ _ => (resized q).ties.2
  · rw [value]
    have states : ∀ q, q ≠ join → (t.proc q).state = (k.proc q).state := by
      intro q other
      by_cases isMaster : q = master
      · rw [isMaster]
        exact top.ties.2
      · rw [others q other isMaster]
    have running : ∀ q, cpu q = true → q ≠ join := by
      intro q onCpu' equal
      have state := base.running q onCpu'
      rw [equal, zombie] at state
      cases state
    apply base.turn grouped
    · intro _
      rw [states p (running p onCpu)]
      exact base.running p onCpu
    · exact fun q _ onCpu' => states q (running q onCpu')
    intro q embryo
    have other : q ≠ join := by
      intro equal
      rw [equal, own] at embryo
      cases embryo
    rw [states q other] at embryo
    obtain ⟨i, m, listed⟩ := base.embryo q embryo
    refine ⟨i, m, ?_⟩
    by_cases isMaster : m = master
    · rw [isMaster] at listed
      rw [isMaster, top.ties.1.workerthread]
      show update (k.proc master).workerthread (k.proc join).tindex none i = some q
      rw [update_of_ne, listed]
      intro equal
      rw [equal, held] at listed
      exact other (Option.some.inj listed).symm
    · have notJoin : m ≠ join := by
        intro equal
        rw [equal, base.grouped.empty_of_worker link] at listed
        cases listed
      rw [others m notJoin isMaster]
      exact listed

theorem base_exec {file : Option (List UInt8)} {argv : List (List UInt8)}
    (ran : exec k p file argv = .ok (t, done)) : Base t (update cpu p true) := by
  obtain ⟨_, others, pgdir, sz, own⟩ := exec_table ran
  have states : ∀ q, (t.proc q).state = (k.proc q).state ∧ (t.proc q).master = (k.proc q).master ∧
      (t.proc q).tindex = (k.proc q).tindex ∧
        (t.proc q).workerthread = (k.proc q).workerthread := by
    intro q
    by_cases here : q = p
    · rw [here, own]
      exact ⟨rfl, rfl, rfl, rfl⟩
    · rw [others q here]
      exact ⟨rfl, rfl, rfl, rfl⟩
  apply base.turn (base.grouped.congr states)
  · intro _
    rw [(states p).1]
    exact base.running p onCpu
  · exact fun q _ _ => (states q).1
  intro q embryo
  rw [(states q).1] at embryo
  obtain ⟨i, master, listed⟩ := base.embryo q embryo
  refine ⟨i, master, ?_⟩
  rw [(states master).2.2.2]
  exact listed

end

theorem growproc_resized (ran : growproc k p n = .ok (t, done)) :
    t.initproc = k.initproc ∧ ∀ q, Resized (k.proc q) (t.proc q) := by
  rcases growproc_eq ran with ⟨_, same⟩ | ⟨d, dir, mem, dir', sz, _, _, _, cases⟩
  · rw [same]
    exact ⟨rfl, fun _ => Resized.refl _⟩
  · rcases cases with ⟨_, _, same⟩ | ⟨_, _, same⟩
    · rw [same]
      exact ⟨rfl, fun _ => Resized.refl _⟩
    · rw [same]
      exact ⟨rfl, fun q => Resized.set (Resized.refl _) ⟨sz, (k.proc (k.masterOf p)).freeusrspace,
        rfl⟩⟩

theorem base_growproc (base : Base k cpu) (onCpu : cpu p = true)
    (ran : growproc k p n = .ok (t, done)) : Base t (update cpu p true) := by
  obtain ⟨_, resized⟩ := growproc_resized ran
  apply base.moves
  · exact fun q => (resized q).ties.1
  · exact fun q => .inl (resized q).ties.2
  · intro _
    rw [(resized p).ties.2]
    exact base.running p onCpu
  · exact fun q _ _ => (resized q).ties.2

theorem Base.woken (base : Base k cpu) (ties : ∀ q, SameTies (k.proc q) (t.proc q))
    (woken : ∀ q, Woken (k.proc q).state (t.proc q).state) : Base t cpu := by
  have same : ∀ q, cpu q = true → (t.proc q).state = (k.proc q).state :=
    fun q onCpu => (woken q).running (base.running q onCpu)
  have turned : Base t (update cpu 0 (cpu 0)) :=
    base.moves ties (fun q => moves_of_woken (woken q))
      (fun onCpu => (same 0 onCpu).trans (base.running 0 onCpu)) fun q _ onCpu => same q onCpu
  rw [update_eq_self] at turned
  exact turned

theorem clean_base (m : Machine) : m.clean.k = m.k ∧ m.clean.cpu = m.cpu := by
  unfold Machine.clean
  split
  · exact ⟨rfl, rfl⟩
  · exact ⟨rfl, rfl⟩

theorem join_kernel {slot : Option Nat} : (m.join p slot k progress).k = k := by
  cases progress with
  | returned value => rfl
  | sleeps => rfl

theorem join_cpu {slot : Option Nat} (onCpu : m.cpu p = true) :
    (m.join p slot k progress).cpu = update m.cpu p (runs progress) := by
  cases progress with
  | returned value =>
    show m.cpu = update m.cpu p true
    rw [← onCpu, update_eq_self]
  | sleeps => rfl

/-- What a step has done: the call that returned, and the machine after it. -/
inductive Did (m : Machine) : Event → Machine → Prop where
  | fork {p : Nat} {k : Kernel} {made : Option Nat} (onCpu : m.cpu p = true)
      (ran : fork m.k p = .ok (k, made)) :
      Did m (.fork p) { m.clean with k := k, cpu := update m.cpu p true }
  | threadCreate {p arg : Nat} {k : Kernel} {made : Option Nat} (onCpu : m.cpu p = true)
      (ran : thread_create m.k p arg = .ok (k, made)) :
      Did m (.threadCreate p arg) { m.clean with k := k, cpu := update m.cpu p true }
  | threadExit {p retval : Nat} {k : Kernel} (onCpu : m.cpu p = true)
      (ran : thread_exit m.k p retval = .ok k) :
      Did m (.threadExit p retval) { m with k := k, cpu := update m.cpu p false }
  | joinFree {p thread w : Nat} (onCpu : m.cpu p = true) (found : m.k.slotOf thread = some w)
      (unused : (m.k.proc w).state = .unused) :
      Did m (.threadJoin p thread) (m.join p (some w) m.k (.returned (some 0)))
  | threadJoin {p thread w : Nat} {k : Kernel} {progress : Progress} (onCpu : m.cpu p = true)
      (found : m.k.slotOf thread = some w) (looks : joinLoop m.k p w = .ok (k, progress)) :
      Did m (.threadJoin p thread) (m.join p (some w) k progress)
  | joinAgain {p join : Nat} {k : Kernel} {progress : Progress} (onCpu : m.cpu p = true)
      (waits : m.joining p = some join) (looks : joinLoop m.k p join = .ok (k, progress)) :
      Did m (.joinAgain p) (m.join p (some join) k progress)
  | exit {p : Nat} {k : Kernel} (onCpu : m.cpu p = true) (ran : exit m.k p = .ok k) :
      Did m (.exit p) { m with k := k, cpu := update m.cpu p false }
  | wait {p : Nat} {k : Kernel} {progress : Progress} (onCpu : m.cpu p = true)
      (ran : wait m.k p = .ok (k, progress)) :
      Did m (.wait p) { m with k := k, cpu := update m.cpu p (runs progress) }
  | exec {p : Nat} {file : Option (List UInt8)} {argv : List (List UInt8)}
      {k : Kernel} {done : Bool}
      (onCpu : m.cpu p = true) (ran : exec m.k p file argv = .ok (k, done)) :
      Did m (.exec p file argv) { m with k := k, cpu := update m.cpu p true }
  | sbrk {p : Nat} {n : Int} {k : Kernel} {done : Bool} (onCpu : m.cpu p = true)
      (ran : growproc m.k p n = .ok (k, done)) :
      Did m (.sbrk p n) { m with k := k, cpu := update m.cpu p true }
  | kill {pid : Nat} : Did m (.kill pid) { m with k := (kill m.k pid).1 }
  | dispatch {p : Nat} (ready : (m.k.proc p).state = .runnable) (off : m.cpu p = false) :
      Did m (.dispatch p) { m with
        k := m.k.setProc p { m.k.proc p with state := .running }
        cpu := update m.cpu p true }
  | yield {p : Nat} (onCpu : m.cpu p = true) :
      Did m (.yield p) (m.leave p { m.k.proc p with state := .runnable })
  | sleep {p : Nat} {chan : Option Chan} (onCpu : m.cpu p = true) :
      Did m (.sleep p chan) (m.leave p { m.k.proc p with chan := chan, state := .sleeping })
  | wakeup {chan : Option Chan} : Did m (.wakeup chan) { m with k := wakeup1 m.k chan }

theorem did_of_step (taken : step m event = some next) : Did m event next := by
  cases event with
  | fork p | threadCreate p arg =>
    obtain ⟨onCpu, _, t, goes, outcome, same⟩ := call_eq_some taken
    obtain ⟨⟨t', made⟩, ran, result⟩ := map_eq_ok.mp outcome
    cases result
    rw [(clean_base m).2] at onCpu same
    rw [same]
    constructor
    · exact onCpu
    · exact ran
  | threadExit p retval | exit p =>
    obtain ⟨onCpu, _, t, goes, outcome, same⟩ := call_eq_some taken
    obtain ⟨t', ran, result⟩ := map_eq_ok.mp outcome
    cases result
    rw [same]
    constructor
    · exact onCpu
    · exact ran
  | threadJoin p thread =>
    obtain ⟨onCpu, _, t, progress, ran, same⟩ := join_eq_some taken
    obtain ⟨w, found, ⟨unused, unchanged, isZero⟩ | looks⟩ := thread_join_eq ran
    · rw [same, found, unchanged, isZero]
      exact .joinFree onCpu found unused
    · rw [same, found]
      exact .threadJoin onCpu found looks
  | joinAgain p =>
    obtain ⟨onCpu, join, t, progress, waits, ran, same⟩ := joinAgain_eq_some taken
    rw [same]
    exact .joinAgain onCpu waits ran
  | wait p | exec p file argv | sbrk p n =>
    obtain ⟨onCpu, _, t, goes, outcome, same⟩ := call_eq_some taken
    obtain ⟨⟨t', value⟩, ran, result⟩ := map_eq_ok.mp outcome
    cases result
    rw [same]
    constructor
    · exact onCpu
    · exact ran
  | kill pid =>
    cases taken
    exact .kill
  | dispatch p =>
    obtain ⟨⟨ready, off⟩, taken⟩ := ite_none_right_eq_some.mp taken
    cases taken
    exact .dispatch ready off
  | yield p =>
    obtain ⟨onCpu, taken⟩ := ite_none_right_eq_some.mp taken
    cases taken
    exact .yield onCpu
  | sleep p chan =>
    obtain ⟨onCpu, taken⟩ := ite_none_right_eq_some.mp taken
    cases taken
    exact .sleep onCpu
  | wakeup chan =>
    cases taken
    exact .wakeup

/-- A step of a gentle run keeps the invariant. -/
theorem base_step (base : Base m.k m.cpu) (gentle : Gentle m event)
    (taken : step m event = some next) : Base next.k next.cpu := by
  cases did_of_step taken with
  | fork onCpu ran => exact base_fork base gentle onCpu ran
  | threadCreate onCpu ran => exact base_thread_create base onCpu ran
  | threadExit onCpu ran => exact base_thread_exit base onCpu gentle ran
  | joinFree onCpu found unused => exact base
  | threadJoin onCpu _ looks | joinAgain onCpu _ looks =>
    rw [join_kernel, join_cpu onCpu]
    exact base_joinLoop base onCpu looks
  | exit onCpu ran => exact base_exit base onCpu gentle ran
  | wait onCpu ran => exact base_wait base onCpu ran
  | exec onCpu ran => exact base_exec base onCpu ran
  | sbrk onCpu ran => exact base_growproc base onCpu ran
  | kill => exact base.woken (kill_ties m.k _) fun q => (kill_steady q).2
  | dispatch ready off =>
    apply base.moves
    · exact fun q => SameTies.set (SameTies.refl _) ⟨rfl, rfl, rfl, rfl, rfl⟩
    · apply setProc_moves
      rw [ready]
      exact .inr ⟨.inl rfl, .inr (.inl rfl)⟩
    · intro _
      rw [setProc_self]
    · intro q other _
      rw [setProc_of_ne other]
  | yield onCpu =>
    exact base.sleep onCpu (setProc_proc _ _ _) ⟨rfl, rfl, rfl, rfl, rfl⟩ (.inl rfl)
  | sleep onCpu =>
    exact base.sleep onCpu (setProc_proc _ _ _) ⟨rfl, rfl, rfl, rfl, rfl⟩ (.inr (.inr rfl))
  | wakeup =>
    exact base.woken (fun q => (wakeup1_ties m.k _ q).1) fun q => (wakeup1_ties m.k _ q).2

theorem base_start {mem : Mem} {code : Nat → UInt8} (nodup : mem.freelist.Nodup)
    (booted : userinit (Kernel.boot mem) code = .ok k) : Base k (Machine.start k).cpu := by
  obtain ⟨consistent, init, _, _, ready, _, others⟩ := consistent_userinit [] nodup booted
  refine ⟨consistent.grouped, ?_, ?_⟩
  · intro p onCpu
    cases onCpu
  intro p embryo
  by_cases isInit : p = init
  · have both := (isInit ▸ embryo : (k.proc init).state = .embryo).symm.trans ready
    cases both
  · have both := embryo.symm.trans (others p isInit)
    cases both

end Xv6.Process.Calls
