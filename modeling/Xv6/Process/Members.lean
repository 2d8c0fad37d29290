import Xv6.Process.Tables

/- Runs in which the members of one group make threads, end them, join them and change the size of
the address space. -/
namespace Xv6.Process.Members

open Function Calls Outcome

variable {m next : Machine} {k t : Kernel} {master p q : Nat} {old new : Proc} {join : Nat}
    {event : Event}

/-- The calls are made by members of the group, a thread that is joined is one of the group, and all
else is scheduling. -/
def Within (master : Nat) (m : Machine) : Event → Prop
  | .threadCreate p _ | .threadExit p _ | .joinAgain p | .sbrk p _ => m.k.masterOf p = master
  | .threadJoin p thread => m.k.masterOf p = master ∧ ∀ w ∈ m.k.slotOf thread,
      (m.k.proc w).state ≠ .unused → (m.k.proc w).master = some master
  | .dispatch _ | .yield _ | .sleep .. | .wakeup _ => True
  | .fork _ | .exit _ | .wait _ | .exec .. | .kill _ => False

instance (master : Nat) (m : Machine) (event : Event) : Decidable (Within master m event) := by
  rcases event <;> dsimp only [Within] <;> infer_instance

/-- A slot keeps its master, and it is not taken. -/
def Keeps (old new : Proc) : Prop := new.master = old.master ∧
    (new.state ≠ .unused → old.state ≠ .unused)

theorem keeps_of_woken (ties : SameTies old new) (woken : Woken old.state new.state) :
    Keeps old new :=
  ⟨ties.master, woken.live.2⟩

theorem keeps_of_resized (resized : Resized old new) : Keeps old new := by
  obtain ⟨sz, free, same⟩ := resized
  rw [same]
  exact ⟨rfl, id⟩

theorem keeps_set (same : new.master = (k.proc p).master) (used : (k.proc p).state ≠ .unused)
    (q : Nat) :
    Keeps (k.proc q) ((k.setProc p new).proc q) :=
  Update.rel ⟨same, fun _ => used⟩ (fun _ => ⟨rfl, id⟩) q

section

variable (grouped : Grouped k.proc) (live : Live (k.proc p).state)
include grouped live

theorem keeps_joinLoop {progress : Progress} (ran : joinLoop k p join = .ok (t, progress))
    (q : Nat) :
    Keeps (k.proc q) (t.proc q) := by
  rcases (joinLoop_table grouped ran).2 with ⟨_, _, proc⟩ | ⟨_, resized⟩ |
    ⟨head, zombie, link, _, _, others, top, ended⟩
  · rw [proc]
    apply keeps_set (k := k) _ live.settled.1 q
    rfl
  · exact keeps_of_resized (resized q)
  by_cases isJoin : q = join
  · rw [isJoin, ended]
    exact ⟨rfl, fun used => absurd rfl used⟩
  by_cases isMaster : q = head
  · obtain ⟨sz, free, result⟩ := top
    rw [isMaster, result]
    exact ⟨rfl, id⟩
  · rw [others q isJoin isMaster]
    exact ⟨rfl, id⟩

theorem keeps_thread_exit {retval : Nat} (ran : thread_exit k p retval = .ok t) (q : Nat) :
    Keeps (k.proc q) (t.proc q) := by
  obtain ⟨link, ran⟩ | ⟨head, link⟩ := thread_exit_cases ran
  · have ends := ended_exit grouped live.settled ran
    exact ⟨(ends.ties q).master, ends.used grouped⟩
  · have ends := ended_thread_exit grouped live link ran
    exact ⟨(ends.ties q).master, ends.used grouped⟩

/-- Only `thread_create` takes a slot, and it takes it for the group. -/
theorem keeps_thread_create {arg : Nat} {made : Option Nat}
    (ran : thread_create k p arg = .ok (t, made)) (q : Nat) :
    Keeps (k.proc q) (t.proc q) ∨ k.unusedSlot = some q ∧
      ((t.proc q).state ≠ .unused → (t.proc q).master = some (k.masterOf p)) := by
  have settled := (grouped.masterOf live.settled).1
  rcases thread_create_table settled.1 ran with ⟨rfl, _⟩ | ⟨_, _, np, found, ⟨_, table⟩ |
    ⟨i, frame, sz, top, state, _, _, resized, _, table⟩⟩
  · exact .inl ⟨rfl, id⟩
  · by_cases here : q = np
    · rw [here, table, update_self]
      exact .inr ⟨found, fun used => absurd rfl used⟩
    · rw [table, update_of_ne here]
      exact .inl ⟨rfl, id⟩
  by_cases here : q = np
  · rw [here, table, update_self]
    exact .inr ⟨found, fun _ => rfl⟩
  · left
    rw [table, update_of_ne here, update_apply]
    split
    · rename_i isMaster
      obtain ⟨_, _, same⟩ := resized
      rw [isMaster, same]
      exact ⟨rfl, id⟩
    · exact ⟨rfl, id⟩

end

theorem clean_joining {np : Nat} (m : Machine) (found : m.k.unusedSlot = some np) :
    m.clean.joining = update m.joining np none := by
  unfold Machine.clean
  rw [found]

theorem clean_joining_some (waits : m.clean.joining p = some join) : m.joining p = some join := by
  unfold Machine.clean at waits
  split at waits
  · exact waits
  · change update m.joining _ none p = some join at waits
    rw [update_apply] at waits
    split at waits
    · cases waits
    · exact waits

/-- A slot keeps its master, or `thread_create` took it for the group. -/
theorem keeps_step (base : Base m.k m.cpu) (within : Within master m event)
    (taken : step m event = some next) (q : Nat) : Keeps (m.k.proc q) (next.k.proc q) ∨
    (m.k.proc q).state = .unused ∧ next.joining q = none ∧
        ((next.k.proc q).state ≠ .unused → (next.k.proc q).master = some master) := by
  cases did_of_step taken with
  | @threadCreate p _ _ _ onCpu ran =>
    rcases keeps_thread_create base.grouped (base.live onCpu) ran q with keeps | ⟨found, own⟩
    · exact .inl keeps
    · right
      rw [show m.k.masterOf p = master from within] at own
      refine ⟨(unusedSlot_spec found).2, ?_, own⟩
      show m.clean.joining q = none
      rw [clean_joining m found, update_self]
  | threadExit onCpu ran =>
    exact .inl (keeps_thread_exit base.grouped (base.live onCpu) ran q)
  | joinFree => exact .inl ⟨rfl, id⟩
  | threadJoin onCpu _ looks | joinAgain onCpu _ looks =>
    rw [join_kernel]
    exact .inl (keeps_joinLoop base.grouped (base.live onCpu) looks q)
  | sbrk _ ran => exact .inl (keeps_of_resized ((growproc_resized ran).2 q))
  | dispatch ready _ =>
    refine .inl (keeps_set (by rfl) ?_ q)
    rw [ready]
    exact ProcState.noConfusion
  | yield onCpu | sleep onCpu => exact .inl (keeps_set (by rfl) (base.used onCpu) q)
  | @wakeup chan =>
    obtain ⟨ties, woken⟩ := wakeup1_ties m.k chan q
    exact .inl (keeps_of_woken ties woken)
  | fork | exit | wait | exec | kill => exact within.elim

/-- Who waits in `thread_join` waits for a thread of the group. -/
def Joins (master : Nat) (m : Machine) : Prop := ∀ p join, m.joining p = some join →
  m.k.masterOf p = master → (m.k.proc join).state ≠ .unused → (m.k.proc join).master = some master

theorem joining_of_join {slot : Option Nat} {progress : Progress}
    (waits : (m.join p slot t progress).joining q = some join) :
    m.joining q = some join ∨ q = p ∧ slot = some join := by
  cases progress with
  | returned value =>
    change update m.joining p none q = some join at waits
    rw [update_apply] at waits
    split at waits
    · cases waits
    · exact .inl waits
  | sleeps =>
    change update m.joining p slot q = some join at waits
    rw [update_apply] at waits
    split at waits
    · rename_i here
      exact .inr ⟨here, waits⟩
    · exact .inl waits

theorem joining_step (within : Within master m event) (taken : step m event = some next)
    (waits : next.joining q = some join) :
    m.joining q = some join ∨
      ((m.k.proc join).state ≠ .unused → (m.k.proc join).master = some master) := by
  cases did_of_step taken with
  | threadCreate => exact .inl (clean_joining_some waits)
  | threadJoin _ found _ | joinFree _ found _ =>
    rw [← found] at waits
    exact (joining_of_join waits).imp id fun here => within.2 join here.2
  | joinAgain _ waits' _ =>
    rcases joining_of_join waits with before | ⟨here, isJoin⟩
    · exact .inl before
    · cases isJoin
      rw [here]
      exact .inl waits'
  | threadExit | sbrk | dispatch | yield | sleep | wakeup => exact .inl waits
  | fork | exit | wait | exec | kill => exact within.elim

theorem Keeps.masterOf (keeps : Keeps (k.proc p) (t.proc p)) : t.masterOf p = k.masterOf p := by
  unfold Kernel.masterOf
  rw [keeps.1]

theorem joins_step (base : Base m.k m.cpu) (joins : Joins master m) (within : Within master m event)
    (taken : step m event = some next) : Joins master next := by
  intro p join waits group used
  rcases keeps_step base within taken join with keeps | ⟨_, _, own⟩
  · rw [keeps.1]
    rcases joining_step within taken waits with before | given
    · rcases keeps_step base within taken p with keeps' | ⟨_, cleared, _⟩
      · rw [keeps'.masterOf] at group
        exact joins p join before group (keeps.2 used)
      · rw [cleared] at waits
        cases waits
    · exact given (keeps.2 used)
  · exact own used

theorem root_step (base : Base m.k m.cpu) (root : (m.k.proc master).master = none)
    (used : (m.k.proc master).state ≠ .unused) (within : Within master m event)
    (taken : step m event = some next) : (next.k.proc master).master = none := by
  rcases keeps_step base within taken master with keeps | ⟨unused, _⟩
  · exact keeps.1.trans root
  · exact absurd unused used

/-- `master` is a process without threads. -/
structure Lone (master : Nat) (m : Machine) : Prop where
  base : Base m.k m.cpu
  live : Live (m.k.proc master).state
  root : (m.k.proc master).master = none
  alone : ∀ i, (m.k.proc master).workerthread i = none
  idle : ∀ p, m.k.masterOf p = master → m.joining p = none

theorem lone_boot {mem : Vm.Mem} {code : Nat → UInt8} (nodup : mem.freelist.Nodup)
    (booted : userinit (Kernel.boot mem) code = .ok k) (isInit : k.initproc = some p) :
    Lone p (Machine.start k) := by
  obtain ⟨good, init, _, isInit', ready, root, others⟩ := consistent_userinit [] nodup booted
  rw [isInit] at isInit'
  cases isInit'
  refine ⟨base_start nodup booted, .inl ready, root, fun i => ?_, fun _ _ => rfl⟩
  by_contra listed
  obtain ⟨w, listed⟩ := Option.ne_none_iff_exists'.mp listed
  have used := (good.grouped.list p i w listed).2.1
  exact used (others w (good.grouped.ne_master listed))

end Xv6.Process.Members
