import Xv6.Process.Results

/- The thread groups: a master lists its workers, and the workers name their master and their place
in its list. -/
namespace Xv6.Process

open Function Outcome

variable {before after : ProcState} {progress : Progress}

/-- Neither UNUSED nor EMBRYO. -/
def Settled (state : ProcState) : Prop := state ≠ .unused ∧ state ≠ .embryo
deriving Decidable

theorem Live.settled {state : ProcState} (live : Live state) : Settled state := by
  constructor
  · intro unused
    rw [unused] at live
    exact not_live_unused live
  · intro embryo
    rw [embryo] at live
    exact not_live_embryo live

/-- The lists of the masters and the links of the workers agree, and a dead group is dead as a
whole. A slot that is still being set up may have an old link. -/
structure Grouped (proc : Nat → Proc) : Prop where
  link : ∀ w m, Settled (proc w).state → (proc w).master = some m →
    (proc m).workerthread (proc w).tindex = some w
  list : ∀ m i w, (proc m).workerthread i = some w → i < NTHRE ∧ (proc w).state ≠ .unused ∧
    (proc w).master = some m ∧ (proc w).tindex = i
  top : ∀ m i w, (proc m).workerthread i = some w → Settled (proc m).state ∧ (proc m).master = none
  dead : ∀ m i w, (proc m).workerthread i = some w → (proc m).state = .zombie →
    (proc w).state = .zombie

variable {k t : Kernel} {proc old new : Nat → Proc} {p q np master w i : Nat}

/-- No group lists the slot. -/
def Unlisted (proc : Nat → Proc) (p : Nat) : Prop := ∀ m i, (proc m).workerthread i ≠ some p

section

variable (grouped : Grouped proc)
include grouped

theorem Grouped.unlisted_of_unused (unused : (proc p).state = .unused) : Unlisted proc p := by
  intro m i listed
  exact (grouped.list m i p listed).2.1 unused

theorem Grouped.unlisted_of_root (root : (proc p).master = none) : Unlisted proc p := by
  intro m i listed
  rw [(grouped.list m i p listed).2.2.1] at root
  cases root

/-- A slot that is not settled lists nobody. -/
theorem Grouped.empty_of_unsettled (new : ¬ Settled (proc p).state) (i : Nat) :
    (proc p).workerthread i = none := by
  cases listed : (proc p).workerthread i with
  | none => rfl
  | some w => exact absurd (grouped.top p i w listed).1 new

/-- A worker lists nobody. -/
theorem Grouped.empty_of_worker (link : (proc p).master = some master) (i : Nat) :
    (proc p).workerthread i = none := by
  cases listed : (proc p).workerthread i with
  | none => rfl
  | some w =>
    rw [(grouped.top p i w listed).2] at link
    cases link

/-- A worker is not its own master. -/
theorem Grouped.ne_master (listed : (proc master).workerthread i = some w) : w ≠ master := by
  intro equal
  have link := (grouped.list master i w listed).2.2.1
  rw [equal, (grouped.top master i w listed).2] at link
  cases link

end

/-- The groups depend on four fields. -/
theorem Grouped.congr (grouped : Grouped old)
    (same : ∀ q, (new q).state = (old q).state ∧ (new q).master = (old q).master ∧
      (new q).tindex = (old q).tindex ∧ (new q).workerthread = (old q).workerthread) :
        Grouped new := by
  constructor
  · intro w m settled link
    rw [(same w).1] at settled
    rw [(same w).2.1] at link
    rw [(same m).2.2.2, (same w).2.2.1]
    exact grouped.link w m settled link
  · intro m i w listed
    rw [(same m).2.2.2] at listed
    rw [(same w).1, (same w).2.1, (same w).2.2.1]
    exact grouped.list m i w listed
  · intro m i w listed
    rw [(same m).2.2.2] at listed
    rw [(same m).1, (same m).2.1]
    exact grouped.top m i w listed
  · intro m i w listed
    rw [(same m).2.2.2] at listed
    rw [(same m).1, (same w).1]
    exact grouped.dead m i w listed

/-- The ties are as before. A slot that is settled now was so before or is listed. -/
theorem Grouped.ties (grouped : Grouped old) (ties : ∀ q, SameTies (old q) (new q))
    (used : ∀ q, (new q).state = .unused → (old q).state = .unused)
    (kept : ∀ q, Settled (old q).state → Settled (new q).state)
    (settled : ∀ q, Settled (new q).state → Settled (old q).state ∨ ∃ m i,
    (old m).workerthread i = some q) (dead : ∀ m i w, (old m).workerthread i = some w →
    (new m).state = .zombie → (new w).state = .zombie) :
    Grouped new := by
  constructor
  · intro w m inUse link
    rw [(ties w).master] at link
    rw [(ties m).workerthread, (ties w).tindex]
    rcases settled w inUse with before | ⟨m', i, listed⟩
    · exact grouped.link w m before link
    · obtain ⟨_, _, link', place⟩ := grouped.list m' i w listed
      rw [link] at link'
      cases link'
      rw [place]
      exact listed
  · intro m i w listed
    rw [(ties m).workerthread] at listed
    obtain ⟨inside, inUse, link, place⟩ := grouped.list m i w listed
    rw [(ties w).master, (ties w).tindex]
    exact ⟨inside, mt (used w) inUse, link, place⟩
  · intro m i w listed
    rw [(ties m).workerthread] at listed
    obtain ⟨inUse, root⟩ := grouped.top m i w listed
    rw [(ties m).master]
    exact ⟨kept m inUse, root⟩
  · intro m i w listed
    rw [(ties m).workerthread] at listed
    exact dead m i w listed

/-- A slot that is set up and listed may start to run. -/
theorem Grouped.start (grouped : Grouped old) (embryo : (old np).state = .embryo)
    (listed : (old master).workerthread i = some np) (ties : ∀ q, SameTies (old q) (new q))
    (same : ∀ q, q ≠ np → (new q).state = (old q).state)
    (ready : (new np).state = .embryo ∨ (new np).state = .runnable) : Grouped new := by
  have alive : (new np).state ≠ .unused ∧ (new np).state ≠ .zombie := by
    rcases ready with state | state
    all_goals
      rw [state]
      exact ⟨ProcState.noConfusion, ProcState.noConfusion⟩
  apply grouped.ties ties
  · intro q unused
    by_cases here : q = np
    · exact absurd (here ▸ unused) alive.1
    · rw [← same q here, unused]
  · intro q settled
    rw [same q fun here => settled.2 (here ▸ embryo)]
    exact settled
  · intro q settled
    by_cases here : q = np
    · rw [here]
      exact .inr ⟨master, i, listed⟩
    · rw [same q here] at settled
      exact .inl settled
  · intro m j w listed' zombie
    rw [same m fun here => alive.2 (here ▸ zombie)] at zombie
    have dead := grouped.dead m j w listed' zombie
    have other : w ≠ np := by
      intro here
      rw [here, embryo] at dead
      cases dead
    rw [same w other, dead]

/-- A state that is kept, or that of a live process before and after. -/
def Moves (before after : ProcState) : Prop := after = before ∨ Live before ∧ Live after

theorem Moves.used (moves : Moves before after) :
    (after = .unused ↔ before = .unused) ∧ (Settled after ↔ Settled before) ∧
    (after = .zombie ↔ before = .zombie) := by
  rcases moves with same | ⟨live, live'⟩
  · rw [same]
    exact ⟨Iff.rfl, Iff.rfl, Iff.rfl⟩
  refine ⟨iff_of_false live'.settled.1 live.settled.1, iff_of_true live'.settled live.settled, ?_⟩
  apply iff_of_false
  · intro zombie
    rw [zombie] at live'
    exact not_live_zombie live'
  · intro zombie
    rw [zombie] at live
    exact not_live_zombie live

theorem Moves.live (moves : Moves before after) : Live after ↔ Live before := by
  rcases moves with same | ⟨live, live'⟩
  · rw [same]
  · exact iff_of_true live' live

theorem Moves.embryo (moves : Moves before after) : after = .embryo ↔ before = .embryo := by
  rcases moves with same | ⟨live, live'⟩
  · rw [same]
  · exact iff_of_false live'.settled.2 live.settled.2

theorem moves_of_woken (woken : Woken before after) : Moves before after := by
  rcases woken with same | ⟨asleep, awake⟩
  · exact .inl same
  · right
    rw [asleep, awake]
    exact ⟨.inr (.inr rfl), .inl rfl⟩

theorem Grouped.moves (grouped : Grouped old) (ties : ∀ q, SameTies (old q) (new q))
    (moves : ∀ q, Moves (old q).state (new q).state) : Grouped new := by
  apply grouped.ties ties
  · exact fun q => (moves q).used.1.mp
  · exact fun q => (moves q).used.2.1.mpr
  · exact fun q inUse => .inl ((moves q).used.2.1.mp inUse)
  · intro m i w listed zombie
    rw [(moves w).used.2.2]
    exact grouped.dead m i w listed ((moves m).used.2.2.mp zombie)

/-- The processes in `gone` have ended, and the children of `head` have init as their parent. -/
structure Ended (gone : Nat → Prop) (head : Nat) (k t : Kernel) : Prop where
  memory : SameMemory k t
  ties : ∀ q, SameTies (k.proc q) (t.proc q)
  record : ∀ q, (t.proc q).pid = (k.proc q).pid ∧ (t.proc q).sz = (k.proc q).sz ∧
    (t.proc q).freeusrspace = (k.proc q).freeusrspace
  parents : ∀ q, q < NPROC → (t.proc q).parent =
    if (k.proc q).parent = some head then k.initproc else (k.proc q).parent
  dead : ∀ q, gone q → (t.proc q).state = .zombie
  others : ∀ q, ¬ gone q → Woken (k.proc q).state (t.proc q).state
  enrolled : ∀ q, gone q → Settled (k.proc q).state ∨ ∃ m i, (k.proc m).workerthread i = some q
  whole : ∀ m i w, (k.proc m).workerthread i = some w → gone m → gone w

section

variable (grouped : Grouped k.proc)
include grouped

/-- The members of a group are the master and those that it lists. -/
theorem Grouped.mem_workers : w ∈ k.workers master ↔ ∃ i,
    (k.proc master).workerthread i = some w := by
  rw [Process.mem_workers]
  constructor
  · rintro ⟨i, _, listed⟩
    exact ⟨i, listed⟩
  · rintro ⟨i, listed⟩
    exact ⟨i, (grouped.list master i w listed).1, listed⟩

theorem Grouped.empty_of_workers (alone : k.workers p = []) (i : Nat) :
    (k.proc p).workerthread i = none := by
  cases listed : (k.proc p).workerthread i with
  | none => rfl
  | some w =>
    have worker := grouped.mem_workers.mpr ⟨i, listed⟩
    rw [alone] at worker
    cases worker

/-- Everybody belongs to the group of their master. -/
theorem Grouped.member (settled : Settled (k.proc q).state) :
    q = k.masterOf q ∨ q ∈ k.workers (k.masterOf q) := by
  unfold Kernel.masterOf
  cases link : (k.proc q).master with
  | none => exact .inl rfl
  | some m => exact .inr (grouped.mem_workers.mpr ⟨_, grouped.link q m settled link⟩)

theorem Grouped.masterOf_member (root : (k.proc master).master = none)
    (member : q = master ∨ q ∈ k.workers master) : k.masterOf q = master := by
  unfold Kernel.masterOf
  rcases member with isMaster | isWorker
  · rw [isMaster, root]
    rfl
  · obtain ⟨i, listed⟩ := grouped.mem_workers.mp isWorker
    rw [(grouped.list master i q listed).2.2.1]
    rfl

/-- The master of a settled process is settled and has no master. -/
theorem Grouped.masterOf (settled : Settled (k.proc p).state) :
    Settled (k.proc (k.masterOf p)).state ∧ (k.proc (k.masterOf p)).master = none := by
  unfold Kernel.masterOf
  cases link : (k.proc p).master with
  | none => exact ⟨settled, link⟩
  | some m => exact grouped.top m _ p (grouped.link p m settled link)

/-- A live member of a group has a live master. -/
theorem Grouped.masterOf_live (live : Live (k.proc p).state) :
    (k.proc (k.masterOf p)).state ≠ .zombie := by
  have alive : (k.proc p).state ≠ .zombie := by
    intro zombie
    rw [zombie] at live
    exact not_live_zombie live
  unfold Kernel.masterOf
  cases link : (k.proc p).master with
  | none => exact alive
  | some m =>
    intro zombie
    exact alive (grouped.dead m _ p (grouped.link p m live.settled link) zombie)

/-- `exit` makes zombies of the members of the group. -/
theorem ended_exit (settled : Settled (k.proc p).state) (ran : exit k p = .ok t) :
    Ended (fun q => q = k.masterOf p ∨ q ∈ k.workers (k.masterOf p)) (k.masterOf p) k t := by
  obtain ⟨root, _⟩ := grouped.masterOf settled
  obtain ⟨v, fqtick, orphaned, _, bystander, slot⟩ := exit_slot ran
  refine ⟨exit_memory ran, fun q => ?_, fun q => ?_, fun q inside => ?_, fun q leaves => ?_,
    fun q stays => ?_, ?_, ?_⟩
  · rw [slot q]
    exact (bystander q).ties.trans ⟨rfl, rfl, rfl, rfl, rfl⟩
  · obtain ⟨_, _, same, _⟩ := bystander q
    rw [slot q, same]
    exact ⟨rfl, rfl, rfl⟩
  · rw [slot q]
    show (v.proc q).parent = _
    rw [orphaned]
    exact orphan_parent k _ _ q inside
  · rw [slot q]
    exact if_pos leaves
  · rw [slot q, if_neg stays]
    exact (bystander q).steady.2
  · rintro q (isMaster | isWorker)
    · rw [isMaster]
      exact .inl root
    · obtain ⟨i, listed⟩ := grouped.mem_workers.mp isWorker
      exact .inr ⟨_, i, listed⟩
  · rintro m i w listed (isMaster | isWorker)
    · rw [isMaster] at listed
      exact .inr (grouped.mem_workers.mpr ⟨i, listed⟩)
    · obtain ⟨j, listed'⟩ := grouped.mem_workers.mp isWorker
      rw [grouped.empty_of_worker (grouped.list _ j m listed').2.2.1] at listed
      cases listed

/-- `thread_exit` makes a zombie of the worker that calls it. -/
theorem ended_thread_exit {retval : Nat} (live : Live (k.proc p).state)
    (link : (k.proc p).master = some master) (ran : thread_exit k p retval = .ok t) :
    Ended (fun q => q = p) p k t := by
  obtain ⟨v, orphaned, bystander, slot⟩ := thread_exit_slot link ran
  refine ⟨(thread_exit_only link ran).memory, fun q => ?_, fun q => ?_, fun q inside => ?_,
      fun q leaves => ?_,
    fun q stays => ?_, ?_, ?_⟩
  · rw [slot q]
    exact (bystander q).ties.trans ⟨rfl, rfl, rfl, rfl, rfl⟩
  · obtain ⟨_, _, same, _⟩ := bystander q
    rw [slot q, same]
    exact ⟨rfl, rfl, rfl⟩
  · rw [slot q]
    show (v.proc q).parent = _
    rw [orphaned]
    exact orphan_parent k _ p q inside
  · rw [slot q]
    exact if_pos leaves
  · rw [slot q, if_neg stays]
    exact (bystander q).steady.2
  · rintro q rfl
    exact .inl live.settled
  · rintro m i w listed rfl
    rw [grouped.empty_of_worker link] at listed
    cases listed

variable {gone : Nat → Prop} {head : Nat} (done : Ended gone head k t)
include done

theorem Grouped.ends : Grouped t.proc := by
  have moves : ∀ q, ¬ gone q → Moves (k.proc q).state (t.proc q).state :=
    fun q stays => moves_of_woken (done.others q stays)
  apply grouped.ties done.ties
  · intro q unused
    by_cases leaves : gone q
    · rw [done.dead q leaves] at unused
      cases unused
    · exact (moves q leaves).used.1.mp unused
  · intro q before
    by_cases leaves : gone q
    · rw [done.dead q leaves]
      decide
    · exact (moves q leaves).used.2.1.mpr before
  · intro q after
    by_cases leaves : gone q
    · exact done.enrolled q leaves
    · exact .inl ((moves q leaves).used.2.1.mp after)
  · intro m i w listed zombie
    by_cases leaves : gone w
    · exact done.dead w leaves
    · rw [(moves w leaves).used.2.2]
      exact grouped.dead m i w listed
        ((moves m (mt (done.whole m i w listed) leaves)).used.2.2.mp zombie)

theorem Ended.used (used : (t.proc q).state ≠ .unused) : (k.proc q).state ≠ .unused := by
  by_cases leaves : gone q
  · rcases done.enrolled q leaves with settled | ⟨m, i, listed⟩
    · exact settled.1
    · exact (grouped.list m i q listed).2.1
  · exact (done.others q leaves).live.2 used

omit grouped

theorem Ended.live (live : Live (t.proc q).state) : ¬ gone q ∧ Live (k.proc q).state := by
  have stays : ¬ gone q := by
    intro leaves
    rw [done.dead q leaves] at live
    exact not_live_zombie live
  exact ⟨stays, (done.others q stays).live.1.mp live⟩

theorem Ended.embryo (embryo : (t.proc q).state = .embryo) : (k.proc q).state = .embryo := by
  have stays : ¬ gone q := by
    intro leaves
    rw [done.dead q leaves] at embryo
    cases embryo
  rw [← (done.others q stays).of_stopped (embryo ▸ ProcState.noConfusion), embryo]

end

/-- A slot that no group lists and that lists nobody may change, as long as it names no master. -/
theorem Grouped.slot {slot : Proc} (grouped : Grouped proc) (unlisted : Unlisted proc p)
    (before : ∀ i, (proc p).workerthread i = none) (after : ∀ i, slot.workerthread i = none)
    (root : Settled slot.state → slot.master = none) : Grouped (update proc p slot) := by
  have entry : ∀ m, (update proc p slot m).workerthread = (proc m).workerthread := by
    intro m
    rw [update_apply]
    split
    · rename_i here
      funext i
      rw [here, before i, after i]
    · rfl
  have other : ∀ m i w, (proc m).workerthread i = some w → m ≠ p ∧ w ≠ p := by
    intro m i w listed
    constructor
    · intro equal
      rw [equal, before i] at listed
      cases listed
    · intro equal
      rw [equal] at listed
      exact unlisted m i listed
  constructor
  · intro w m settled link
    by_cases here : w = p
    · rw [here, update_self] at settled link
      rw [root settled] at link
      cases link
    · rw [update_of_ne here] at settled link
      rw [update_of_ne here, entry]
      exact grouped.link w m settled link
  · intro m i w listed
    rw [entry] at listed
    rw [update_of_ne (other m i w listed).2]
    exact grouped.list m i w listed
  · intro m i w listed
    rw [entry] at listed
    rw [update_of_ne (other m i w listed).1]
    exact grouped.top m i w listed
  · intro m i w listed
    rw [entry] at listed
    rw [update_of_ne (other m i w listed).1, update_of_ne (other m i w listed).2]
    exact grouped.dead m i w listed

/-- The table once `np` is worker `i` of `master`. -/
def enlisted (proc : Nat → Proc) (master np i frame : Nat) : Nat → Proc :=
  update (update proc master (enlist (proc master) i np)) np
    (recruit (proc np) (proc master) frame master i)

section

variable (frame : Nat)

theorem enlisted_new :
    enlisted proc master np i frame np = recruit (proc np) (proc master) frame master i :=
  update_self _ _ _

theorem enlisted_other (proc : Nat → Proc) (master i : Nat) (other : q ≠ np) :
    let slot := enlisted proc master np i frame q
    slot.state = (proc q).state ∧ slot.master = (proc q).master ∧ slot.tindex = (proc q).tindex ∧
      slot.pgdir = (proc q).pgdir ∧ slot.kstack = (proc q).kstack := by
  dsimp only
  unfold enlisted
  rw [update_of_ne other, update_apply]
  split
  · rename_i here
    rw [here]
    exact ⟨rfl, rfl, rfl, rfl, rfl⟩
  · exact ⟨rfl, rfl, rfl, rfl, rfl⟩

theorem enlisted_list (different : np ≠ master) (free : (proc master).workerthread i = none)
    (m j w : Nat) : (enlisted proc master np i frame m).workerthread j = some w ↔
      m = master ∧ j = i ∧ w = np ∨ (proc m).workerthread j = some w := by
  by_cases isNew : m = np
  · rw [isNew, enlisted_new]
    show (proc np).workerthread j = some w ↔ _
    simp only [different, false_and, false_or]
  · unfold enlisted
    rw [update_of_ne isNew, update_apply]
    split
    · rename_i here
      show update (proc master).workerthread i (some np) j = some w ↔ _
      rw [update_apply]
      split
      · rename_i place
        rw [here, place, free]
        simp only [Option.some.injEq, true_and, reduceCtorEq, or_false]
        exact eq_comm
      · rename_i place
        simp only [place, false_and, and_false, false_or, here]
    · rename_i other
      simp only [other, false_and, false_or]

/-- The entries of the lists are the old ones and the new one. -/
theorem Grouped.enlisted_list (grouped : Grouped proc) (embryo : (proc np).state = .embryo)
    (unlisted : Unlisted proc np) (settled : Settled (proc master).state)
    (free : (proc master).workerthread i = none) {m j : Nat}
    (listed : (enlisted proc master np i frame m).workerthread j = some w) :
    m = master ∧ j = i ∧ w = np ∨ m ≠ np ∧ w ≠ np ∧ (proc m).workerthread j = some w := by
  have different : np ≠ master := by
    intro equal
    rw [equal] at embryo
    exact settled.2 embryo
  rcases (Process.enlisted_list frame different free m j w).mp listed with here | before
  · exact .inl here
  · refine .inr ⟨?_, ?_, before⟩
    · intro equal
      rw [equal] at before
      exact (grouped.top np j w before).1.2 embryo
    · intro equal
      rw [equal] at before
      exact unlisted m j before

theorem Grouped.enlist (grouped : Grouped proc) (embryo : (proc np).state = .embryo)
    (unlisted : Unlisted proc np) (root : (proc master).master = none)
    (settled : Settled (proc master).state) (alive : (proc master).state ≠ .zombie)
    (inside : i < NTHRE) (free : (proc master).workerthread i = none) :
    Grouped (enlisted proc master np i frame) := by
  have different : np ≠ master := by
    intro equal
    rw [equal] at embryo
    exact settled.2 embryo
  have lists := fun m j w => grouped.enlisted_list (w := w) (m := m) (j := j) frame embryo unlisted
    settled free
  have kept := fun q (isOld : q ≠ np) => enlisted_other frame proc master i isOld
  constructor
  · intro w m inUse link
    rw [Process.enlisted_list frame different free]
    by_cases isNew : w = np
    · rw [isNew, enlisted_new] at inUse
      exact absurd embryo inUse.2
    · obtain ⟨state, link', place, _⟩ := kept w isNew
      rw [state] at inUse
      rw [link'] at link
      rw [place]
      exact .inr (grouped.link w m inUse link)
  · intro m j w listed
    rcases lists m j w listed with ⟨isMaster, place, isNew⟩ | ⟨_, old, before⟩
    · rw [isMaster, place, isNew, enlisted_new]
      refine ⟨inside, ?_, rfl, rfl⟩
      show (proc np).state ≠ .unused
      rw [embryo]
      decide
    · obtain ⟨state, link, place, _⟩ := kept w old
      rw [state, link, place]
      exact grouped.list m j w before
  · intro m j w listed
    rcases lists m j w listed with ⟨isMaster, _⟩ | ⟨old, _, before⟩
    · rw [isMaster, (kept master different.symm).1, (kept master different.symm).2.1]
      exact ⟨settled, root⟩
    · rw [(kept m old).1, (kept m old).2.1]
      exact grouped.top m j w before
  · intro m j w listed zombie
    rcases lists m j w listed with ⟨isMaster, _⟩ | ⟨old, worker, before⟩
    · rw [isMaster, (kept master different.symm).1] at zombie
      exact absurd zombie alive
    · rw [(kept m old).1] at zombie
      rw [(kept w worker).1]
      exact grouped.dead m j w before zombie

end

/-- Workers of `master` leave their slots and its list. -/
theorem Grouped.retire {after : Nat → Proc} (grouped : Grouped proc) (master : Nat)
    (gone : Nat → Prop)
    (members : ∀ w, gone w → w = master ∨ ∃ i, (proc master).workerthread i = some w)
    (whole : gone master → ∀ i w, (proc master).workerthread i = some w → gone w)
    (unused : ∀ w, gone w → (after w).state = .unused)
    (cleared : ∀ w, gone w → ∀ i, (after w).workerthread i = none)
    (kept : ∀ q, ¬ gone q → (after q).state = (proc q).state ∧ (after q).master = (proc q).master ∧
      (after q).tindex = (proc q).tindex) (lists : ∀ q, ¬ gone q → ∀ i w,
        (after q).workerthread i = some w ↔
      (proc q).workerthread i = some w ∧ ¬ gone w) : Grouped after := by
  have listed : ∀ m i w, (after m).workerthread i = some w →
      ¬ gone m ∧ ¬ gone w ∧ (proc m).workerthread i = some w := by
    intro m i w held
    have stays : ¬ gone m := by
      intro leaves
      rw [cleared m leaves i] at held
      cases held
    obtain ⟨before, there⟩ := (lists m stays i w).mp held
    exact ⟨stays, there, before⟩
  constructor
  · intro w m settled link
    have stays : ¬ gone w := by
      intro leaves
      exact settled.1 (unused w leaves)
    obtain ⟨state, link', place⟩ := kept w stays
    rw [state] at settled
    rw [link'] at link
    have before := grouped.link w m settled link
    have masterStays : ¬ gone m := by
      intro leaves
      rcases members m leaves with isMaster | ⟨j, isWorker⟩
      · rw [isMaster] at leaves before
        exact stays (whole leaves _ w before)
      · have none := grouped.empty_of_worker (grouped.list master j m isWorker).2.2.1
          (proc w).tindex
        rw [before] at none
        cases none
    rw [place, lists m masterStays]
    exact ⟨before, stays⟩
  · intro m i w held
    obtain ⟨_, stays, before⟩ := listed m i w held
    obtain ⟨state, link, place⟩ := kept w stays
    rw [state, link, place]
    exact grouped.list m i w before
  · intro m i w held
    obtain ⟨stays, _, before⟩ := listed m i w held
    obtain ⟨state, link, _⟩ := kept m stays
    rw [state, link]
    exact grouped.top m i w before
  · intro m i w held zombie
    obtain ⟨masterStays, stays, before⟩ := listed m i w held
    rw [(kept m masterStays).1] at zombie
    rw [(kept w stays).1]
    exact grouped.dead m i w before zombie

theorem setProc_moves {new : Proc} (moves : Moves (k.proc p).state new.state) (q : Nat) :
    Moves (k.proc q).state ((k.setProc p new).proc q).state :=
  Update.rel (R := fun (old new : Proc) => Moves old.state new.state) moves (fun _ => .inl rfl) q

theorem Grouped.set {new : Proc} (grouped : Grouped k.proc) (ties : SameTies (k.proc p) new)
    (moves : Moves (k.proc p).state new.state) : Grouped (k.setProc p new).proc :=
  grouped.moves (fun _ => SameTies.set (SameTies.refl _) ties) (setProc_moves moves)

theorem wakeup1_ties (k : Kernel) (chan : Option Chan) (q : Nat) :
    SameTies (k.proc q) ((wakeup1 k chan).proc q) ∧
    Woken (k.proc q).state ((wakeup1 k chan).proc q).state := by
  have each := wakeup1_bystander 0 k chan q
  exact ⟨each.ties, each.steady.2⟩

theorem kill_ties (k : Kernel) (pid q : Nat) : SameTies (k.proc q) ((kill k pid).1.proc q) := by
  obtain ⟨killed, state, same, _⟩ := kill_slot k pid q
  rw [same]
  exact ⟨rfl, rfl, rfl, rfl, rfl⟩

theorem grouped_claim (grouped : Grouped k.proc) (unused : (k.proc p).state = .unused) :
    Grouped (k.claim p).proc := by
  have unsettled : ¬ Settled (k.proc p).state := fun settled => settled.1 unused
  rw [claim_proc]
  apply grouped.slot (grouped.unlisted_of_unused unused)
  · exact grouped.empty_of_unsettled unsettled
  · exact grouped.empty_of_unsettled unsettled
  · exact fun settled => absurd rfl settled.2

theorem unlisted_claim (grouped : Grouped k.proc) (unused : (k.proc p).state = .unused) :
    Unlisted (k.claim p).proc p := by
  intro m i
  have lists : ((k.claim p).proc m).workerthread = (k.proc m).workerthread :=
    setProc_same Proc.workerthread (by rfl) m
  rw [lists]
  exact grouped.unlisted_of_unused unused m i

theorem wait_missed (missed : k.deadChild p = none) (ran : wait k p = .ok (t, progress)) :
    t = k ∨ t = k.setProc p { k.proc p with chan := some (.proc p), state := .sleeping } := by
  rcases wait_eq ran with ⟨_, same⟩ | ⟨_, same⟩ | ⟨c, _, _, _, _, _, found, _⟩
  · exact .inl same
  · exact .inr same
  · rw [missed] at found
    cases found

section

variable (grouped : Grouped k.proc)
include grouped

/-- `wait` reclaims the whole group of the child that it finds, and nobody else. -/
theorem wait_found {c : Nat} (found : k.deadChild p = some c) (ran : wait k p = .ok (t, progress)) :
    (∀ q, q = c ∨ q ∈ k.workers c → (t.proc q).state = .unused ∧ (t.proc q).parent = none ∧
      ∀ i, (t.proc q).workerthread i = none) ∧
    ∀ q, ¬ (q = c ∨ q ∈ k.workers c) → t.proc q = k.proc q := by
  have reclaims : ∃ u new, reclaimWorkers k c = .ok u ∧ t.proc = update u.proc c new ∧
      new.state = .unused ∧ new.parent = none ∧ new.workerthread = (u.proc c).workerthread := by
    unfold wait at ran
    rw [found, bind_eq_ok] at ran
    obtain ⟨u, reclaim, ran⟩ := ran
    obtain ⟨v, freed, ran⟩ := bind_eq_ok.mp ran
    obtain ⟨w, freedvm, ran⟩ := bind_eq_ok.mp ran
    cases ran
    have table := (freevm_proc freedvm).1
    rw [setProc_proc, (free_proc freed).1] at table
    refine ⟨u, { w.proc c with pid := 0, parent := none, killed := false, state := .unused },
      reclaim,
      ?_, rfl, rfl, ?_⟩
    · rw [setProc_proc, table, update_idem]
    · rw [table, update_self]
  obtain ⟨u, new, reclaim, table, unused, orphan, lists⟩ := reclaims
  obtain ⟨_, _, _, child, gone, others⟩ := reclaimWorkers_eq reclaim
    fun i w listed => grouped.ne_master listed
  have distinct : ∀ q, q ∈ k.workers c → q ≠ c := by
    intro q worker
    obtain ⟨i, listed⟩ := grouped.mem_workers.mp worker
    exact grouped.ne_master listed
  constructor
  · rintro q (isChild | worker)
    · rw [isChild, table, update_self, lists, child]
      refine ⟨unused, orphan, fun i => ?_⟩
      dsimp only
      split
      · rfl
      · rename_i outside
        cases listed : (k.proc c).workerthread i with
        | none => rfl
        | some w => exact absurd (grouped.list c i w listed).1 outside
    · rw [table, update_of_ne (distinct q worker), gone q worker]
      obtain ⟨j, listed⟩ := grouped.mem_workers.mp worker
      exact ⟨rfl, rfl, grouped.empty_of_worker (grouped.list c j q listed).2.2.1⟩
  · intro q stays
    rw [not_or] at stays
    rw [table, update_of_ne stays.1, others q stays.1 stays.2]

theorem wait_initproc (ran : wait k p = .ok (t, progress)) : t.initproc = k.initproc := by
  rcases wait_eq ran with ⟨_, same⟩ | ⟨_, same⟩ |
    ⟨c, u, page, d, dir, mem, _, reclaim, _, _, _, _, _, same⟩
  · rw [same]
  · rw [same]
    rfl
  · obtain ⟨_, _, initproc, _⟩ := reclaimWorkers_eq reclaim
      fun i w listed => grouped.ne_master listed
    rw [same]
    exact initproc

theorem grouped_wait (live : Live (k.proc p).state) (ran : wait k p = .ok (t, progress)) :
    Grouped t.proc := by
  cases found : k.deadChild p with
  | none =>
    rcases wait_missed found ran with same | same
    · rw [same]
      exact grouped
    · rw [same]
      apply grouped.set
      · exact ⟨rfl, rfl, rfl, rfl, rfl⟩
      · exact .inr ⟨live, .inr (.inr rfl)⟩
  | some c =>
    obtain ⟨_, _, root, _⟩ := deadChild_spec found
    obtain ⟨gone, others⟩ := wait_found grouped found ran
    apply grouped.retire c fun q => q = c ∨ q ∈ k.workers c
    · rintro w (isChild | worker)
      · exact .inl isChild
      · exact .inr (grouped.mem_workers.mp worker)
    · intro _ i w listed
      exact .inr (grouped.mem_workers.mpr ⟨i, listed⟩)
    · exact fun w leaves => (gone w leaves).1
    · exact fun w leaves => (gone w leaves).2.2
    · intro q stays
      rw [others q stays]
      exact ⟨rfl, rfl, rfl⟩
    intro q stays i w
    rw [others q stays]
    constructor
    · intro listed
      refine ⟨listed, ?_⟩
      have link := (grouped.list q i w listed).2.2.1
      rintro (isChild | worker)
      · rw [isChild, root] at link
        cases link
      · obtain ⟨j, listed'⟩ := grouped.mem_workers.mp worker
        rw [(grouped.list c j w listed').2.2.1] at link
        exact stays (.inl (Option.some.inj link).symm)
    · exact And.left

theorem grouped_joinLoop {join : Nat} (live : Live (k.proc p).state)
    (ran : joinLoop k p join = .ok (t, progress)) : Grouped t.proc := by
  have freed : ∀ {u : Kernel} {done : Bool}, deallocstack k join = .ok (u, done) →
      ∀ q, SameTies (k.proc q) (u.proc q) ∧ (u.proc q).state = (k.proc q).state := by
    intro u done ran q
    obtain ⟨_, _, _, _, resized⟩ := deallocstack_table ran
    exact (resized q).ties
  rcases joinLoop_eq ran with ⟨_, _, same⟩ | ⟨_, _, failed⟩ |
    ⟨zombie, u, master, worked, link, _, same⟩
  · rw [same]
    apply grouped.set
    · exact ⟨rfl, rfl, rfl, rfl, rfl⟩
    · exact .inr ⟨live, .inr (.inr rfl)⟩
  · exact grouped.moves (fun q => (freed failed q).1) fun q => .inl (freed failed q).2
  have kept := freed worked
  have grouped' : Grouped u.proc := grouped.moves (fun q => (kept q).1) fun q => .inl (kept q).2
  rw [← (kept join).1.master] at link
  rw [← (kept join).2] at zombie
  have listed := grouped'.link join master (by rw [zombie]; decide) link
  have different : join ≠ master := grouped'.ne_master listed
  rw [same]
  simp only [setProc_proc]
  apply grouped'.retire master (· = join)
  · rintro w isJoin
    exact .inr ⟨_, isJoin ▸ listed⟩
  · intro isJoin
    exact absurd isJoin.symm different
  · rintro w isJoin
    rw [isJoin, update_self]
  · rintro w isJoin i
    rw [isJoin, update_self, update_of_ne different]
    exact grouped'.empty_of_worker link i
  · intro q other
    rw [update_of_ne other, update_apply]
    split
    · rename_i isMaster
      rw [isMaster]
      exact ⟨rfl, rfl, rfl⟩
    · exact ⟨rfl, rfl, rfl⟩
  · intro q other i w
    rw [update_of_ne other, update_apply]
    have elsewhere : (u.proc q).workerthread i = some w → w = join →
        q = master ∧ i = (u.proc join).tindex := by
      intro held isJoin
      obtain ⟨_, _, link', place⟩ := grouped'.list q i w held
      rw [isJoin] at link' place
      rw [link] at link'
      exact ⟨(Option.some.inj link').symm, place.symm⟩
    split
    · rename_i isMaster
      dsimp only
      rw [update_apply]
      split
      · rename_i here
        constructor
        · intro held
          cases held
        · rintro ⟨held, notJoin⟩
          rw [isMaster, here, listed] at held
          exact absurd (Option.some.inj held).symm notJoin
      · rename_i there
        rw [isMaster] at elsewhere ⊢
        exact ⟨fun held => ⟨held, fun isJoin => there (elsewhere held isJoin).2⟩, And.left⟩
    · rename_i notMaster
      exact ⟨fun held => ⟨held, fun isJoin => notMaster (elsewhere held isJoin).1⟩, And.left⟩

theorem joinLoop_table {join : Nat} (ran : joinLoop k p join = .ok (t, progress)) :
    t.initproc = k.initproc ∧
    (progress = .sleeps ∧ (k.proc join).state ≠ .zombie ∧ t.proc = update k.proc p
        { k.proc p with chan := (k.proc join).master.map Chan.proc, state := .sleeping } ∨
      progress = .returned none ∧ (∀ q, Resized (k.proc q) (t.proc q)) ∨
      ∃ master, (k.proc join).state = .zombie ∧ (k.proc join).master = some master ∧
        (k.proc master).workerthread (k.proc join).tindex = some join ∧
        progress = .returned (some ((k.proc master).retvals (k.proc join).tindex)) ∧
        (∀ q, q ≠ join → q ≠ master → t.proc q = k.proc q) ∧
        Resized { k.proc master with
          workerthread := update (k.proc master).workerthread (k.proc join).tindex none }
          (t.proc master) ∧
        t.proc join = { k.proc join with state := .unused, kstack := none, killed := false }) := by
  rcases joinLoop_eq ran with ⟨alive, sleeps, same⟩ | ⟨_, isNone, failed⟩ |
    ⟨zombie, u, master, worked, link, value, same⟩
  · rw [same]
    exact ⟨rfl, .inl ⟨sleeps, alive, rfl⟩⟩
  · obtain ⟨_, _, initproc, _, resized⟩ := deallocstack_table failed
    exact ⟨initproc, .inr (.inl ⟨isNone, resized⟩)⟩
  obtain ⟨master', link', initproc, others, resized⟩ := deallocstack_table worked
  rw [link] at link'
  cases link'
  have listed := grouped.link join master (by rw [zombie]; decide) link
  have different : join ≠ master := grouped.ne_master listed
  obtain ⟨sz, free, top⟩ := resized master
  rw [others join different, top] at value
  rw [others join different] at same
  refine ⟨by rw [same]; exact initproc, .inr (.inr ⟨master, zombie, link, listed, value, ?_⟩)⟩
  refine ⟨?_, ?_, ?_⟩
  · intro q other notMaster
    rw [same, setProc_of_ne other, setProc_of_ne notMaster, others q notMaster]
  · rw [same, setProc_of_ne different.symm, setProc_self, top]
    exact ⟨sz, free, rfl⟩
  · rw [same, setProc_self, setProc_of_ne different, others join different]

/-- A thread that was joined: its stack is unmapped and noted, and its slot is unused. -/
theorem joinLoop_done {join value : Nat}
    (ran : joinLoop k p join = .ok (t, .returned (some value))) :
    ∃ master i page d dir mem dir' sz, (k.proc join).state = .zombie ∧
      (k.proc join).master = some master ∧
        (k.proc master).workerthread (k.proc join).tindex = some join ∧
      value = (k.proc master).retvals (k.proc join).tindex ∧ i < NTHRE ∧
      (k.proc master).freeusrspace i = 0 ∧ (k.proc join).kstack = some page ∧
      (k.proc join).pgdir = some d ∧ k.pgdirs d = some dir ∧ Vm.deallocuvm (Vm.kfree k.mem page) dir
        (k.proc join).sz (stackBase (k.proc join).sz) = .ok (mem, dir', sz) ∧ sz ≠ 0 ∧
      t.pgdirs = update k.pgdirs d (some dir') ∧
      t.proc = update (update k.proc master { k.proc master with
          freeusrspace := update (k.proc master).freeusrspace i sz
          workerthread := update (k.proc master).workerthread (k.proc join).tindex none })
        join { k.proc join with state := .unused, kstack := none, killed := false } := by
  rcases joinLoop_eq ran with ⟨_, sleeps, _⟩ | ⟨_, isNone, _⟩ |
    ⟨zombie, u, master, worked, link, isValue, same⟩
  · cases sleeps
  · cases isNone
  cases isValue
  have listed := grouped.link join master (by rw [zombie]; decide) link
  have different : join ≠ master := grouped.ne_master listed
  obtain ⟨page, master', stack, link', cases⟩ := deallocstack_eq worked
  rw [link] at link'
  cases link'
  rcases cases with ⟨impossible, _⟩ |
    ⟨i, d, dir, mem, dir', sz, inside, zero, pgdir, present, unmapped, done, made⟩
  · cases impossible
  have positive : sz ≠ 0 := bne_iff_ne.mp done.symm
  have top : u.proc master = { k.proc master with
      freeusrspace := update (k.proc master).freeusrspace i sz } := by
    rw [made, setProc_self]
  have own : u.proc join = k.proc join := by
    rw [made, setProc_of_ne different]
    rfl
  refine ⟨master, i, page, d, dir, mem, dir', sz, zombie, link, listed, ?_, inside, zero, stack,
    pgdir, present, unmapped, positive, ?_, ?_⟩
  · rw [top, own]
  · rw [same, made]
    rfl
  · rw [same, setProc_proc, setProc_proc, update_of_ne different, top, own, made,
      setProc_proc, update_idem]
    rfl

end

end Xv6.Process
