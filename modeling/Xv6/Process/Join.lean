import Xv6.Process.Members
import Xv6.Process.Records

/- What `thread_join` delivers: the values that the threads of one group pass to `thread_exit`. -/
namespace Xv6.Process.Join

open Function Calls Members Outcome List

variable {k t : Kernel} {m : Machine} {master p q np w i : Nat} {left : Nat → Option Nat}
    {retval arg join value thread : Nat} {progress : Progress} {made' : List Nat}
    {asked' : Nat → Nat}

/-- What is in the table of the threads that were made and not joined yet; `left` says by pid what a
thread passed to `thread_exit`. -/
structure Values (master : Nat) (k : Kernel) (left : Nat → Option Nat) : Prop where
  root : (k.proc master).master = none
  used : (k.proc master).state ≠ .unused
  pids : ∀ q, (k.proc q).pid < k.nextpid
  own : ∀ i w, (k.proc master).workerthread i = some w → ∀ q, (k.proc q).pid = (k.proc w).pid →
    q = w
  pending : ∀ i w v, (k.proc master).workerthread i = some w → left (k.proc w).pid = some v →
    (k.proc w).state = .zombie ∧ (k.proc master).retvals i = v
  ended : (k.proc master).state ≠ .zombie → ∀ i w, (k.proc master).workerthread i = some w →
    (k.proc w).state = .zombie → (left (k.proc w).pid).isSome
  future : ∀ pid, k.nextpid ≤ pid → left pid = none

/-- Neither a thread nor a value comes or goes. -/
structure Quiet (master : Nat) (k t : Kernel) : Prop where
  lists : (t.proc master).workerthread = (k.proc master).workerthread
  retvals : (t.proc master).retvals = (k.proc master).retvals
  pid : ∀ q, (t.proc q).pid = (k.proc q).pid
  links : ∀ q, (t.proc q).master = (k.proc q).master
  dead : ∀ q, (t.proc q).state = .zombie ↔ (k.proc q).state = .zombie
  free : ∀ q, (t.proc q).state = .unused ↔ (k.proc q).state = .unused
  nextpid : t.nextpid = k.nextpid

theorem Quiet.refl (master : Nat) (k : Kernel) : Quiet master k k :=
  ⟨rfl, rfl, fun _ => rfl, fun _ => rfl, fun _ => Iff.rfl, fun _ => Iff.rfl, rfl⟩

/-- No thread is added, and the pids stay. -/
theorem Values.carry {left' : Nat → Option Nat} (values : Values master k left)
    (root : (t.proc master).master = (k.proc master).master)
    (used : (t.proc master).state ≠ .unused) (pid : ∀ q, (t.proc q).pid = (k.proc q).pid)
    (nextpid : t.nextpid = k.nextpid) (before : ∀ i w, (t.proc master).workerthread i = some w →
    (k.proc master).workerthread i = some w) (pending : ∀ i w v,
    (t.proc master).workerthread i = some w → left' (k.proc w).pid = some v →
      (t.proc w).state = .zombie ∧ (t.proc master).retvals i = v)
    (ended : (t.proc master).state ≠ .zombie → ∀ i w, (t.proc master).workerthread i = some w →
      (t.proc w).state = .zombie → (left' (k.proc w).pid).isSome)
    (future : ∀ pid, k.nextpid ≤ pid → left' pid = none) : Values master t left' := by
  refine ⟨root.trans values.root, used, fun q => ?_, fun i w listed q same => ?_, ?_, ?_, ?_⟩
  · rw [pid q, nextpid]
    exact values.pids q
  · rw [pid, pid] at same
    exact values.own i w (before i w listed) q same
  · simpa only [pid] using pending
  · simpa only [pid] using ended
  · rwa [nextpid]

theorem Values.quiet (values : Values master k left) (quiet : Quiet master k t) :
    Values master t left := by
  apply values.carry (quiet.links master) _ quiet.pid quiet.nextpid _ _ _ values.future
  · exact fun unused => values.used ((quiet.free master).mp unused)
  · exact fun i w listed => quiet.lists ▸ listed
  · intro i w v listed passed
    rw [quiet.lists] at listed
    rw [quiet.retvals, quiet.dead w]
    exact values.pending i w v listed passed
  · intro alive i w listed zombie
    rw [quiet.lists] at listed
    exact values.ended (fun dead => alive ((quiet.dead master).mpr dead)) i w listed
      ((quiet.dead w).mp zombie)

/-- Threads that live move between states, and sizes change. -/
theorem quiet_of_moves (ties : ∀ q, SameTies (k.proc q) (t.proc q))
    (pid : ∀ q, (t.proc q).pid = (k.proc q).pid)
    (retvals : (t.proc master).retvals = (k.proc master).retvals)
    (moves : ∀ q, Moves (k.proc q).state (t.proc q).state) (nextpid : t.nextpid = k.nextpid) :
    Quiet master k t :=
  ⟨(ties master).workerthread, retvals, pid, fun q => (ties q).master, fun q => (moves q).used.2.2,
    fun q => (moves q).used.1, nextpid⟩

theorem quiet_move {state : ProcState} {chan : Option Chan} (live : Live (k.proc p).state)
    (next : Live state) :
    Quiet master k (k.setProc p { k.proc p with state, chan }) := by
  refine quiet_of_moves (fun q => (SameTies.refl _).set ?_) ?_ ?_ ?_ ?_
  · exact ⟨rfl, rfl, rfl, rfl, rfl⟩
  · exact setProc_same Proc.pid rfl
  · exact setProc_same Proc.retvals (by rfl) master
  · exact setProc_moves (.inr ⟨live, next⟩)
  · rfl

theorem quiet_of_resized (resized : ∀ q, Resized (k.proc q) (t.proc q))
    (nextpid : t.nextpid = k.nextpid) :
    Quiet master k t := by
  have same : ∀ q, SameTies (k.proc q) (t.proc q) := fun q => (resized q).ties.1
  apply quiet_of_moves same _ _ _ nextpid
  · intro q
    obtain ⟨sz, free, result⟩ := resized q
    rw [result]
  · obtain ⟨sz, free, result⟩ := resized master
    rw [result]
  · intro q
    obtain ⟨sz, free, result⟩ := resized q
    rw [result]
    exact .inl rfl

theorem quiet_wakeup1 (k : Kernel) (chan : Option Chan) : Quiet master k (wakeup1 k chan) :=
  quiet_of_moves (fun q => (wakeup1_ties k chan q).1) (fun q => (wakeup1_record k chan q).pid)
    (wakeup1_record k chan master).retvals (fun q => moves_of_woken (wakeup1_ties k chan q).2) rfl

theorem quiet_growproc {n : Int} {done : Bool} (ran : growproc k p n = .ok (t, done)) :
    Quiet master k t := by
  apply quiet_of_resized (growproc_resized ran).2
  rcases growproc_eq ran with ⟨_, same⟩ |
    ⟨d, dir, mem, dir', sz, _, _, _, ⟨_, _, same⟩ | ⟨_, _, same⟩⟩
  · rw [same]
  · rw [same]
    rfl
  · rw [same]
    rfl

/-- A thread leaves its value for the one that joins it. -/
theorem values_thread_exit (values : Values master k left) (grouped : Grouped k.proc)
    (live : Live (k.proc p).state) (link : (k.proc p).master = some master)
    (ran : thread_exit k p retval = .ok t) :
    Values master t (update left (k.proc p).pid (some retval)) := by
  have listed := grouped.link p master live.settled link
  have different := grouped.ne_master listed
  have ends := ended_thread_exit grouped live link ran
  have lists : (t.proc master).workerthread = (k.proc master).workerthread :=
    (ends.ties master).workerthread
  -- no other thread is listed with the pid of the one that ends
  have elsewhere : ∀ {i w}, (k.proc master).workerthread i = some w → w ≠ p →
      update left (k.proc p).pid (some retval) (k.proc w).pid = left (k.proc w).pid := by
    intro i w listed' other
    apply update_of_ne
    exact fun same => other (values.own i w listed' p same.symm).symm
  have woken : ∀ {q}, q ≠ p → ((t.proc q).state = .zombie ↔ (k.proc q).state = .zombie) := by
    intro q other
    exact (moves_of_woken (ends.others q other)).used.2.2
  apply values.carry (ends.ties master).master _ (fun q => (ends.record q).1) ends.memory.nextpid
  · exact fun i w listed' => lists ▸ listed'
  · intro i w v listed' passed
    rw [lists] at listed'
    rw [(thread_exit_record link ran).2.retvals]
    show _ ∧ update (k.proc master).retvals (k.proc p).tindex retval i = v
    by_cases here : w = p
    · rw [here] at listed' passed ⊢
      rw [update_self] at passed
      rw [(grouped.list master i p listed').2.2.2, update_self]
      exact ⟨ends.dead p rfl, Option.some.inj passed⟩
    · rw [elsewhere listed' here] at passed
      rw [woken here, update_of_ne]
      · exact values.pending i w v listed' passed
      · intro same
        rw [same, listed] at listed'
        exact here (Option.some.inj listed').symm
  · intro alive i w listed' zombie
    rw [lists] at listed'
    by_cases here : w = p
    · rw [here, update_self]
      rfl
    · rw [elsewhere listed' here]
      exact values.ended (fun gone => alive ((woken different.symm).mpr gone)) i w listed'
        ((woken here).mp zombie)
  · intro pid later
    rw [update_of_ne]
    · exact values.future pid later
    · have before := values.pids p
      omega
  · intro unused
    exact values.used ((moves_of_woken (ends.others master different.symm)).used.1.mp unused)

/-- When the process ends, no value is lost, and no thread of it runs any more. -/
theorem values_exit (values : Values master k left) (ends : Ended
      (fun q => q = master ∨ q ∈ k.workers master) master k t) (grouped : Grouped k.proc)
    (retvals : (t.proc master).retvals = (k.proc master).retvals) : Values master t left := by
  have lists : (t.proc master).workerthread = (k.proc master).workerthread :=
    (ends.ties master).workerthread
  have dead := ends.dead master (.inl rfl)
  apply values.carry (ends.ties master).master _
    (fun q => (ends.record q).1) ends.memory.nextpid _ _ _
    values.future
  · rw [dead]
    exact ProcState.noConfusion
  · exact fun i w listed => lists ▸ listed
  · intro i w v listed passed
    rw [lists] at listed
    rw [retvals]
    refine ⟨ends.dead w (.inr (grouped.mem_workers.mpr ⟨i, listed⟩)), ?_⟩
    exact (values.pending i w v listed passed).2
  · exact fun alive => absurd dead alive

theorem Values.ne_slot (values : Values master k left) (found : k.unusedSlot = some np) :
    master ≠ np := by
  intro equal
  rw [equal] at values
  exact values.used (unusedSlot_spec found).2

/-- What `thread_create` does to the threads: nothing, or the slot it takes gets the next pid, and
the slot is listed unless there was no kernel stack. -/
theorem thread_create_listed {made : Option Nat} (values : Values master k left)
    (group : k.masterOf p = master) (ran : thread_create k p arg = .ok (t, made)) :
    t = k ∧ made = none ∨ ∃ np, k.unusedSlot = some np ∧ t.nextpid = k.nextpid + 1 ∧
      (t.proc np).pid = k.nextpid ∧
      (∀ q, q ≠ np → (t.proc q).pid = (k.proc q).pid ∧ (t.proc q).retvals = (k.proc q).retvals ∧
        (t.proc q).state = (k.proc q).state ∧ (t.proc q).master = (k.proc q).master) ∧
      (made = none ∧ (t.proc master).workerthread = (k.proc master).workerthread ∨
      ∃ i, (k.proc master).workerthread i = none ∧
        (t.proc master).workerthread = update (k.proc master).workerthread i (some np) ∧
        (t.proc np).state ≠ .zombie ∧ (made = none ∨ made = some np)) := by
  have used := values.used
  rw [← group] at used
  have table := thread_create_table used ran
  rw [group] at table
  rcases table with ⟨same, failed⟩ | ⟨_, nextpid, np, found, ⟨failed, table⟩ |
    ⟨i, frame, sz, top, state, _, free, ⟨_, _, rfl⟩, outcome, table⟩⟩
  · exact .inl ⟨same, failed⟩
  · refine .inr ⟨np, found, nextpid, ?_, fun q other => ?_, .inl ⟨failed, ?_⟩⟩
    · rw [table, update_self]
    · rw [table, update_of_ne other]
      exact ⟨rfl, rfl, rfl, rfl⟩
    · rw [table, update_of_ne (values.ne_slot found)]
  refine .inr ⟨np, found, nextpid, ?_, fun q other => ?_, .inr ⟨i, free, ?_, ?_, ?_⟩⟩
  · rw [table, update_self]
    rfl
  · rw [table, update_of_ne other, update_apply]
    split
    · rename_i here
      rw [here]
      exact ⟨rfl, rfl, rfl, rfl⟩
    · exact ⟨rfl, rfl, rfl, rfl⟩
  · rw [table, update_of_ne (values.ne_slot found), update_self]
    rfl
  · rw [table, update_self]
    rcases outcome with ⟨rfl, _⟩ | ⟨rfl, _⟩ <;> exact ProcState.noConfusion
  · exact outcome.imp And.right And.right

theorem values_thread_create {made : Option Nat} (values : Values master k left)
    (grouped : Grouped k.proc) (group : k.masterOf p = master)
    (ran : thread_create k p arg = .ok (t, made)) : Values master t left := by
  rcases thread_create_listed values group ran with ⟨same, _⟩ |
    ⟨np, found, nextpid, pid, others, cases⟩
  · rw [same]
    exact values
  have unused := (unusedSlot_spec found).2
  obtain ⟨_, retvals, state, link⟩ := others master (values.ne_slot found)
  -- threads that were listed before are others than the slot that is taken
  have worker : ∀ {i w}, (k.proc master).workerthread i = some w → w ≠ np := by
    intro i w listed equal
    rw [equal] at listed
    exact (grouped.list master i np listed).2.1 unused
  have before : ∀ {i w}, (t.proc master).workerthread i = some w →
      (k.proc master).workerthread i = some w ∨ w = np ∧ (t.proc np).state ≠ .zombie := by
    intro i w listed
    rcases cases with ⟨_, same⟩ | ⟨j, _, lists, alive, _⟩
    · rw [same] at listed
      exact .inl listed
    · rw [lists, update_apply] at listed
      split at listed
      · exact .inr ⟨(Option.some.inj listed).symm, alive⟩
      · exact .inl listed
  have later : ∀ q, q ≠ np → (t.proc q).pid < k.nextpid := by
    intro q other
    rw [(others q other).1]
    exact values.pids q
  have unpassed : left k.nextpid = none := values.future k.nextpid (Nat.le_refl _)
  constructor
  · exact link.trans values.root
  · rw [state]
    exact values.used
  · intro q
    by_cases here : q = np
    · rw [here, pid]
      omega
    · have below := later q here
      omega
  · intro i w listed q same
    rcases before listed with listed | ⟨isNew, _⟩
    · have other := worker listed
      by_cases here : q = np
      · rw [here, pid] at same
        have below := later w other
        omega
      · rw [(others q here).1, (others w other).1] at same
        exact values.own i w listed q same
    · rw [isNew] at same ⊢
      by_contra here
      have below := later q here
      omega
  · intro i w v listed passed
    rcases before listed with listed | ⟨isNew, _⟩
    · rw [(others w (worker listed)).1] at passed
      rw [(others w (worker listed)).2.2.1, retvals]
      exact values.pending i w v listed passed
    · rw [isNew, pid, unpassed] at passed
      cases passed
  · intro alive i w listed zombie
    rcases before listed with listed | ⟨isNew, notDead⟩
    · rw [(others w (worker listed)).1]
      rw [(others w (worker listed)).2.2.1] at zombie
      rw [state] at alive
      exact values.ended alive i w listed zombie
    · rw [isNew] at zombie
      exact absurd zombie notDead
  · intro pid' later'
    exact values.future pid' (by omega)

theorem joinLoop_nextpid (ran : joinLoop k p join = .ok (t, progress)) : t.nextpid = k.nextpid := by
  have freed : ∀ {u : Kernel} {done : Bool}, deallocstack k join = .ok (u, done) →
      u.nextpid = k.nextpid := by
    intro u done given
    obtain ⟨page, head, _, _, ⟨_, _, same⟩ | ⟨i, d, dir, mem, dir', sz, _, _, _, _, _, _, same⟩⟩ :=
      deallocstack_eq given
    · rw [same]
      rfl
    · rw [same]
      rfl
  rcases joinLoop_eq ran with ⟨_, _, same⟩ | ⟨_, _, failed⟩ | ⟨_, u, head, worked, _, _, same⟩
  · rw [same]
    rfl
  · exact freed failed
  · have kept := freed worked
    rw [same]
    exact kept

/-- What `thread_join` does to the threads when it finds the thread ended. -/
theorem joinLoop_joined (grouped : Grouped k.proc)
    (listed : (k.proc master).workerthread i = some join)
    (ran : joinLoop k p join = .ok (t, .returned (some value))) :
    (k.proc join).state = .zombie ∧ value = (k.proc master).retvals i ∧
      (t.proc master).workerthread = update (k.proc master).workerthread i none ∧
      (t.proc master).retvals = (k.proc master).retvals ∧
      (∀ q, (t.proc q).pid = (k.proc q).pid ∧ (t.proc q).master = (k.proc q).master) ∧
      ∀ q, q ≠ join → (t.proc q).state = (k.proc q).state := by
  obtain ⟨_, _, link, index⟩ := grouped.list master i join listed
  obtain ⟨head, j, page, d, dir, mem, dir', sz, zombie, link', _, isValue, _, _, _, _, _, _,
      _, _, proc⟩ :=
    joinLoop_done grouped ran
  rw [link] at link'
  cases link'
  rw [index] at isValue proc
  have different := grouped.ne_master listed
  refine ⟨zombie, isValue, ?_, ?_, fun q => ?_, fun q other => ?_⟩
  · rw [proc, update_of_ne different.symm, update_self]
  · rw [proc, update_of_ne different.symm, update_self]
  · rw [proc, update_apply]
    split
    · rename_i here
      rw [here]
      exact ⟨rfl, rfl⟩
    rw [update_apply]
    split
    · rename_i here
      rw [here]
      exact ⟨rfl, rfl⟩
    · exact ⟨rfl, rfl⟩
  · rw [proc, update_of_ne other, update_apply]
    split
    · rename_i here
      rw [here]
    · rfl

theorem values_joined (values : Values master k left) (grouped : Grouped k.proc)
    (listed : (k.proc master).workerthread i = some join)
    (ran : joinLoop k p join = .ok (t, .returned (some value))) : Values master t left := by
  obtain ⟨_, _, lists, retvals, each, states⟩ := joinLoop_joined grouped listed ran
  have top := states master (grouped.ne_master listed).symm
  have before : ∀ {j w}, (t.proc master).workerthread j = some w →
      (k.proc master).workerthread j = some w ∧ w ≠ join := by
    intro j w listed'
    rw [lists, update_apply] at listed'
    split at listed'
    · cases listed'
    · rename_i other
      refine ⟨listed', fun same => other ?_⟩
      rw [same] at listed'
      rw [← (grouped.list master j join listed').2.2.2, (grouped.list master i join listed).2.2.2]
  apply values.carry (each master).2 _
    (fun q => (each q).1) (joinLoop_nextpid ran) _ _ _ values.future
  · rw [top]
    exact values.used
  · exact fun j w listed' => (before listed').1
  · intro j w v listed' passed
    obtain ⟨listed', other⟩ := before listed'
    rw [states w other, retvals]
    exact values.pending j w v listed' passed
  · intro alive j w listed' zombie
    obtain ⟨listed', other⟩ := before listed'
    rw [states w other] at zombie
    rw [top] at alive
    exact values.ended alive j w listed' zombie

/-- Joining a thread that ended gives what it passed to `thread_exit`. -/
theorem Values.delivered (values : Values master k left) (grouped : Grouped k.proc)
    (live : Live (k.proc p).state) (group : k.masterOf p = master)
    (listed : (k.proc master).workerthread i = some join)
    (ran : joinLoop k p join = .ok (t, .returned (some value))) :
    left (k.proc join).pid = some value := by
  obtain ⟨zombie, isValue, _⟩ := joinLoop_joined grouped listed ran
  have alive := grouped.masterOf_live live
  rw [group] at alive
  obtain ⟨v, passed⟩ := Option.isSome_iff_exists.mp (values.ended alive i join listed zombie)
  rw [passed, isValue, (values.pending i join v listed passed).2]

/-- Who was made and not asked for, and who is waited for: each of these threads is listed, and only
one waits for it. -/
structure Tickets (master : Nat) (m : Machine) (made : List Nat) (asked : Nat → Nat) : Prop where
  nodup : made.Nodup
  listed : ∀ pid ∈ made, ∃ i w, (m.k.proc master).workerthread i = some w ∧ (m.k.proc w).pid = pid
  joins : ∀ p join, m.joining p = some join → m.k.masterOf p = master →
    (∃ i, (m.k.proc master).workerthread i = some join) ∧ (m.k.proc join).pid = asked p ∧
      asked p ∉ made
  single : ∀ p p' join, m.joining p = some join → m.joining p' = some join →
    m.k.masterOf p = master →
    m.k.masterOf p' = master → p = p'

variable {made : List Nat} {asked : Nat → Nat} {next : Machine}

/-- The threads that are still waited for stay listed, with their pids, and nobody begins to
wait. -/
theorem Tickets.keep (tickets : Tickets master m made asked) (fewer : made'.Sublist made)
    (questions : ∀ p join, next.joining p = some join → asked' p = asked p)
    (waits : ∀ p join, next.joining p = some join → m.joining p = some join)
    (links : ∀ p join, next.joining p = some join → next.k.masterOf p = m.k.masterOf p)
    (stays : ∀ i w, (m.k.proc master).workerthread i = some w →
      ((m.k.proc w).pid ∈ made' ∨ ∃ p, next.joining p = some w ∧ m.k.masterOf p = master) →
      (next.k.proc master).workerthread i = some w ∧ (next.k.proc w).pid = (m.k.proc w).pid) :
    Tickets master next made' asked' := by
  constructor
  · exact tickets.nodup.sublist fewer
  · intro pid member
    obtain ⟨i, w, listed, isPid⟩ := tickets.listed pid (fewer.subset member)
    obtain ⟨listed', same⟩ := stays i w listed (.inl (isPid ▸ member))
    exact ⟨i, w, listed', same.trans isPid⟩
  · intro p join waiting group
    rw [links p join waiting] at group
    obtain ⟨⟨i, listed⟩, isAsked, other⟩ := tickets.joins p join (waits p join waiting) group
    obtain ⟨listed', same⟩ := stays i join listed (.inr ⟨p, waiting, group⟩)
    rw [questions p join waiting]
    exact ⟨⟨i, listed'⟩, same.trans isAsked, fun member => other (fewer.subset member)⟩
  · intro p p' join waiting waiting' group group'
    rw [links p join waiting] at group
    rw [links p' join waiting'] at group'
    exact tickets.single p p' join (waits p join waiting) (waits p' join waiting') group group'

theorem Quiet.masterOf (quiet : Quiet master k t) (p : Nat) : t.masterOf p = k.masterOf p := by
  unfold Kernel.masterOf
  rw [quiet.links p]

section

variable (tickets : Tickets master m made asked)
include tickets

theorem Tickets.quiet (quiet : Quiet master m.k next.k) (fewer : made'.Sublist made)
    (questions : ∀ p join, next.joining p = some join → asked' p = asked p)
    (waits : ∀ p join, next.joining p = some join → m.joining p = some join) :
    Tickets master next made' asked' := by
  apply tickets.keep fewer questions waits
  · exact fun p _ _ => quiet.masterOf p
  · intro i w listed _
    rw [quiet.lists]
    exact ⟨listed, quiet.pid w⟩

/-- A thread is made, with a pid that nobody had. -/
theorem Tickets.add {pid : Nat}
    (listed : ∃ i w, (m.k.proc master).workerthread i = some w ∧ (m.k.proc w).pid = pid)
    (fresh : pid ∉ made) (unasked : ∀ p join, m.joining p = some join → m.k.masterOf p = master →
      asked p ≠ pid) :
    Tickets master m (pid :: made) asked := by
  constructor
  · exact nodup_cons.mpr ⟨fresh, tickets.nodup⟩
  · intro pid' member
    rcases mem_cons.mp member with here | member
    · rw [here]
      exact listed
    · exact tickets.listed pid' member
  · intro p join waiting group
    obtain ⟨there, isAsked, other⟩ := tickets.joins p join waiting group
    refine ⟨there, isAsked, fun member => ?_⟩
    rcases mem_cons.mp member with here | member
    · exact unasked p join waiting group here
    · exact other member
  · exact tickets.single

theorem tickets_thread_create {result : Option Nat} {cpu : Nat → Bool}
    (values : Values master m.k left) (grouped : Grouped m.k.proc) (group : m.k.masterOf p = master)
    (ran : thread_create m.k p arg = .ok (t, result)) :
    Tickets master ⟨t, cpu, m.clean.joining⟩ ((result.map fun np => (t.proc np).pid).toList ++ made)
      asked := by
  rcases thread_create_listed values group ran with ⟨same, failed⟩ |
    ⟨np, found, nextpid, pid, others, cases⟩
  · rw [failed, same]
    apply tickets.quiet
    · exact Quiet.refl master m.k
    · exact List.Sublist.refl made
    · exact fun _ _ _ => rfl
    · exact fun _ _ waits => clean_joining_some waits
  have unused := (unusedSlot_spec found).2
  have links : ∀ q join, m.clean.joining q = some join → t.masterOf q = m.k.masterOf q := by
    intro q join waits
    have other : q ≠ np := by
      intro here
      rw [clean_joining m found, here, update_self] at waits
      cases waits
    unfold Kernel.masterOf
    rw [(others q other).2.2.2]
  have kept : Tickets master ⟨t, cpu, m.clean.joining⟩ made asked := by
    apply tickets.keep (List.Sublist.refl made) (fun _ _ _ => rfl)
    · exact fun _ _ waits => clean_joining_some waits
    · exact links
    intro i w listed _
    have other : w ≠ np := by
      intro here
      rw [here] at listed
      exact (grouped.list master i np listed).2.1 unused
    refine ⟨?_, (others w other).1⟩
    rcases cases with ⟨_, same⟩ | ⟨j, free, lists, _⟩
    · exact (congrFun same i).trans listed
    show (t.proc master).workerthread i = some w
    rw [lists, update_of_ne]
    · exact listed
    · intro here
      rw [here, free] at listed
      cases listed
  rcases cases with ⟨failed, _⟩ | ⟨j, _, lists, _, made'⟩
  · rw [failed]
    exact kept
  rcases made' with failed | worked
  · rw [failed]
    exact kept
  rw [worked]
  apply kept.add
  · refine ⟨j, np, ?_, rfl⟩
    show (t.proc master).workerthread j = some np
    rw [lists, update_self]
  · intro member
    obtain ⟨i, w, _, isPid⟩ := tickets.listed _ member
    have below := values.pids w
    rw [isPid] at below
    exact absurd pid (Nat.ne_of_lt below)
  · intro q join waits isMember isAsked
    have isMember' := (links q join waits).symm.trans isMember
    obtain ⟨_, isPid, _⟩ := tickets.joins q join (clean_joining_some waits) isMember'
    have below := values.pids join
    rw [isPid, isAsked] at below
    exact absurd pid (Nat.ne_of_lt below)

/-- A thread that was made is asked for, and it has not ended yet. -/
theorem Tickets.wait (member : thread ∈ made) (listed : (m.k.proc master).workerthread i = some w)
    (isPid : (m.k.proc w).pid = thread) (quiet : Quiet master m.k next.k)
    (waits : next.joining = update m.joining p (some w)) :
    Tickets master next (made.erase thread) (update asked p thread) := by
  -- nobody waits for it yet
  have alone : ∀ q, m.joining q = some w → m.k.masterOf q ≠ master := by
    intro q waiting group
    obtain ⟨_, isAsked, other⟩ := tickets.joins q w waiting group
    rw [← isAsked, isPid] at other
    exact other member
  have before : ∀ {q join}, next.joining q = some join →
      q = p ∧ join = w ∨ q ≠ p ∧ m.joining q = some join := by
    intro q join waiting
    rw [waits, update_apply] at waiting
    split at waiting
    · rename_i here
      exact .inl ⟨here, (Option.some.inj waiting).symm⟩
    · rename_i other
      exact .inr ⟨other, waiting⟩
  constructor
  · exact tickets.nodup.erase thread
  · intro pid member'
    obtain ⟨j, w', listed', isPid'⟩ := tickets.listed pid (mem_of_mem_erase member')
    rw [quiet.lists]
    exact ⟨j, w', listed', (quiet.pid w').trans isPid'⟩
  · intro q join waiting group
    rw [quiet.lists, quiet.pid]
    rw [quiet.masterOf] at group
    rcases before waiting with ⟨here, isJoin⟩ | ⟨other, waiting⟩
    · rw [here, isJoin, update_self]
      exact ⟨⟨i, listed⟩, isPid, fun still => (tickets.nodup.mem_erase_iff.mp still).1 rfl⟩
    · rw [update_of_ne other]
      obtain ⟨there, isAsked, notMade⟩ := tickets.joins q join waiting group
      exact ⟨there, isAsked, fun still => notMade (mem_of_mem_erase still)⟩
  · intro q q' join waiting waiting' group group'
    rw [quiet.masterOf] at group group'
    rcases before waiting with ⟨here, isJoin⟩ | ⟨other, waiting⟩
    · rcases before waiting' with ⟨here', _⟩ | ⟨other', waiting'⟩
      · rw [here, here']
      · rw [isJoin] at waiting'
        exact absurd group' (alone q' waiting')
    · rcases before waiting' with ⟨here', isJoin⟩ | ⟨other', waiting'⟩
      · rw [isJoin] at waiting
        exact absurd group (alone q waiting)
      · exact tickets.single q q' join waiting waiting' group group'

/-- A thread is joined, and nobody else waited for it. -/
theorem Tickets.joined (grouped : Grouped m.k.proc)
    (listed : (m.k.proc master).workerthread i = some w)
    (ran : joinLoop m.k p w = .ok (t, .returned (some value))) (isNext : next.k = t)
    (fewer : made'.Sublist made) (gone : (m.k.proc w).pid ∉ made')
    (questions : ∀ p join, next.joining p = some join → asked' p = asked p)
    (waits : ∀ p join, next.joining p = some join → m.joining p = some join)
    (alone : ∀ q, next.joining q = some w → m.k.masterOf q ≠ master) :
    Tickets master next made' asked' := by
  obtain ⟨_, _, lists, _, each, _⟩ := joinLoop_joined grouped listed ran
  apply tickets.keep fewer questions waits
  · intro q _ _
    unfold Kernel.masterOf
    rw [isNext, (each q).2]
  intro j w' listed' tracked
  rw [isNext]
  refine ⟨?_, (each w').1⟩
  rw [lists, update_of_ne]
  · exact listed'
  intro here
  rw [here, listed] at listed'
  cases listed'
  rcases tracked with still | ⟨q, waiting, group⟩
  · exact gone still
  · exact alone q waiting group

end

/-- The machine, with a note of what the threads of a group did: the pids that `thread_create` gave
and nobody joined yet, the pid that a process passed to its `thread_join`, and by pid what was
passed to `thread_exit`. -/
structure Journal where
  m : Machine
  made : List Nat
  asked : Nat → Nat
  left : Nat → Option Nat

/-- The pid that `thread_create` gives, if it works. -/
def created (k : Kernel) (p arg : Nat) : List Nat :=
  match thread_create k p arg with
  | .ok (t, some np) => [(t.proc np).pid]
  | _ => []

theorem created_eq {result : Option Nat} (ran : thread_create k p arg = .ok (t, result)) :
    created k p arg = (result.map fun np => (t.proc np).pid).toList := by
  unfold created
  rw [ran]
  cases result <;> rfl

/-- What was passed to `thread_exit` after a call by `curproc`; without a master the process
ends. -/
def passed (left : Nat → Option Nat) (curproc : Proc) (retval : Nat) : Nat → Option Nat :=
  match curproc.master with
  | none => left
  | some _ => update left curproc.pid (some retval)

def Journal.note (s : Journal) (next : Machine) : Event → Journal
  | .threadCreate p arg => { s with m := next, made := created s.m.k p arg ++ s.made }
  | .threadExit p retval => { s with m := next, left := passed s.left (s.m.k.proc p) retval }
  | .threadJoin p thread =>
    { s with m := next, made := s.made.erase thread, asked := update s.asked p thread }
  | _ => { s with m := next }

def journalStep (s : Journal) (event : Event) : Option Journal :=
  (step s.m event).map fun next => s.note next event

/-- The calls are made by members of the group, and each thread that was made is joined once. -/
def Single (master : Nat) (s : Journal) : Event → Prop
  | .threadCreate p _ | .threadExit p _ | .joinAgain p | .sbrk p _ => s.m.k.masterOf p = master
  | .threadJoin p thread => s.m.k.masterOf p = master ∧ thread ∈ s.made
  | .dispatch _ | .yield _ | .sleep .. | .wakeup _ => True
  | .fork _ | .exit _ | .wait _ | .exec .. | .kill _ => False

instance (master : Nat) (s : Journal) (event : Event) : Decidable (Single master s event) := by
  rcases event <;> dsimp only [Single] <;> infer_instance

/-- `thread_join` of a thread gave a value: it is the one that the thread passed to `thread_exit`,
the entry of the thread is free, and all other values are there still. -/
def Delivered (master : Nat) (s : Journal) (thread value : Nat) (t : Kernel) : Prop :=
  s.left thread = some value ∧
  (∃ i w, (s.m.k.proc master).workerthread i = some w ∧ (s.m.k.proc w).pid = thread ∧
    (t.proc master).workerthread i = none) ∧
  (t.proc master).retvals = (s.m.k.proc master).retvals

/-- When a join ends with 0, the value was delivered. -/
def Delivers (master : Nat) (s : Journal) (event : Event) : Prop :=
  (step s.m event).isSome → match event with
    | .threadJoin p thread => ∀ t value,
        thread_join s.m.k p thread = .ok (t, .returned (some value)) →
          Delivered master s thread value t
    | .joinAgain p => ∀ join ∈ s.m.joining p, ∀ t value,
        joinLoop s.m.k p join = .ok (t, .returned (some value)) →
          Delivered master s (s.asked p) value t
    | _ => True

/-- Threads that ended and were not joined yet have their values in the table of the master. -/
def Pending (master : Nat) (s : Journal) : Prop :=
  ∀ i w v, (s.m.k.proc master).workerthread i = some w → s.left (s.m.k.proc w).pid = some v →
    (s.m.k.proc master).retvals i = v

/-- What holds along the runs of one group. -/
structure Good (master : Nat) (s : Journal) : Prop where
  base : Base s.m.k s.m.cpu
  values : Values master s.m.k s.left
  tickets : Tickets master s.m s.made s.asked

variable {s after : Journal}

section

variable (good : Good master s)
include good

theorem Good.slot (member : thread ∈ s.made) (found : s.m.k.slotOf thread = some w) :
    ∃ i, (s.m.k.proc master).workerthread i = some w ∧ (s.m.k.proc w).pid = thread := by
  obtain ⟨_, _, isPid, _⟩ := Scan.first_eq_some found
  rw [beq_iff_eq] at isPid
  obtain ⟨i, w', listed, isPid'⟩ := good.tickets.listed thread member
  have same := good.values.own i w' listed w (isPid.trans isPid'.symm)
  rw [← same] at listed
  exact ⟨i, listed, isPid⟩

/-- A join of a thread that was made looks at its slot, which is in use. -/
theorem Good.looks (member : thread ∈ s.made)
    (ran : thread_join s.m.k p thread = .ok (t, progress)) :
    ∃ i w, s.m.k.slotOf thread = some w ∧ (s.m.k.proc master).workerthread i = some w ∧
      (s.m.k.proc w).pid = thread ∧ joinLoop s.m.k p w = .ok (t, progress) := by
  obtain ⟨w, found, cases⟩ := thread_join_eq ran
  obtain ⟨i, listed, isPid⟩ := good.slot member found
  rcases cases with ⟨unused, _⟩ | looks
  · exact absurd unused (good.base.grouped.list master i w listed).2.1
  · exact ⟨i, w, found, listed, isPid, looks⟩

theorem Good.delivered (live : Live (s.m.k.proc p).state) (group : s.m.k.masterOf p = master)
    (listed : (s.m.k.proc master).workerthread i = some join)
    (isPid : (s.m.k.proc join).pid = thread)
    (ran : joinLoop s.m.k p join = .ok (t, .returned (some value))) :
    Delivered master s thread value t := by
  have passed := good.values.delivered good.base.grouped live group listed ran
  obtain ⟨_, _, lists, retvals, _⟩ := joinLoop_joined good.base.grouped listed ran
  rw [isPid] at passed
  refine ⟨passed, ⟨i, join, listed, isPid, ?_⟩, retvals⟩
  rw [lists, update_self]

theorem Good.delivers {event : Event} (single : Single master s event) :
    Delivers master s event := by
  intro possible
  obtain ⟨next, taken⟩ := Option.isSome_iff_exists.mp possible
  cases event with
  | threadJoin p thread =>
    intro t value ran
    obtain ⟨onCpu, _⟩ := join_eq_some taken
    obtain ⟨i, w, _, listed, isPid, looks⟩ := good.looks single.2 ran
    exact good.delivered (good.base.live onCpu) single.1 listed isPid looks
  | joinAgain p =>
    intro join waits t value ran
    obtain ⟨onCpu, _⟩ := joinAgain_eq_some taken
    obtain ⟨⟨i, listed⟩, isPid, _⟩ := good.tickets.joins p join waits single
    exact good.delivered (good.base.live onCpu) single listed isPid ran
  | _ => trivial

end

/-- The outcomes of a look at a thread that is not ended, or for whose stack there is no place. -/
theorem quiet_joinLoop (live : Live (k.proc p).state)
    (ran : joinLoop k p join = .ok (t, progress)) :
    progress = .sleeps ∧ Quiet master k t ∨ progress = .returned none ∧ Quiet master k t ∨
      ∃ value, progress = .returned (some value) := by
  have nextpid := joinLoop_nextpid ran
  rcases joinLoop_eq ran with ⟨_, sleeps, same⟩ | ⟨_, isNone, failed⟩ | ⟨_, _, _, _, _, value, _⟩
  · rw [same]
    exact .inl ⟨sleeps, quiet_move live (.inr (.inr rfl))⟩
  · obtain ⟨_, _, _, _, resized⟩ := deallocstack_table failed
    exact .inr (.inl ⟨isNone, quiet_of_resized resized nextpid⟩)
  · exact .inr (.inr ⟨_, value⟩)

theorem update_none_eq_some {joining : Nat → Option Nat}
    (waits : update joining p none q = some join) :
    q ≠ p ∧ joining q = some join := by
  rw [update_apply] at waits
  split at waits
  · cases waits
  · rename_i other
    exact ⟨other, waits⟩

section

variable (good : Good master s)
include good

theorem good_threadJoin (onCpu : s.m.cpu p = true) (single : Single master s (.threadJoin p thread))
    (ran : thread_join s.m.k p thread = .ok (t, progress)) :
    Values master t s.left ∧ Tickets master (s.m.join p (s.m.k.slotOf thread) t progress)
      (s.made.erase thread) (update s.asked p thread) := by
  obtain ⟨group, member⟩ := single
  obtain ⟨i, w, found, listed, isPid, looks⟩ := good.looks member ran
  have fewer : (s.made.erase thread).Sublist s.made := erase_sublist
  have grouped := good.base.grouped
  rcases quiet_joinLoop (good.base.live onCpu) looks with ⟨sleeps, quiet⟩ | ⟨failed, quiet⟩ |
    ⟨value, done⟩
  · rw [sleeps, found]
    exact ⟨good.values.quiet quiet, good.tickets.wait member listed isPid quiet rfl⟩
  · rw [failed]
    refine ⟨good.values.quiet quiet, good.tickets.quiet quiet fewer ?_ ?_⟩
    · exact fun q join waits => update_of_ne (update_none_eq_some waits).1 _ _
    · exact fun q join waits => (update_none_eq_some waits).2
  rw [done] at looks ⊢
  refine ⟨values_joined good.values grouped listed looks, ?_⟩
  apply good.tickets.joined grouped listed looks rfl fewer
  · rw [isPid]
    exact fun still => (good.tickets.nodup.mem_erase_iff.mp still).1 rfl
  · exact fun q join waits => update_of_ne (update_none_eq_some waits).1 _ _
  · exact fun q join waits => (update_none_eq_some waits).2
  · intro q waits group'
    obtain ⟨_, isAsked, notMade⟩ := good.tickets.joins q w (update_none_eq_some waits).2 group'
    rw [← isAsked, isPid] at notMade
    exact notMade member

theorem good_joinAgain (onCpu : s.m.cpu p = true) (group : s.m.k.masterOf p = master)
    (waits : s.m.joining p = some join) (ran : joinLoop s.m.k p join = .ok (t, progress)) :
    Values master t s.left ∧ Tickets master (s.m.join p (some join) t progress) s.made s.asked := by
  obtain ⟨⟨i, listed⟩, isPid, notMade⟩ := good.tickets.joins p join waits group
  have fewer : s.made.Sublist s.made := List.Sublist.refl _
  have grouped := good.base.grouped
  rcases quiet_joinLoop (good.base.live onCpu) ran with ⟨sleeps, quiet⟩ | ⟨failed, quiet⟩ |
    ⟨value, done⟩
  · rw [sleeps]
    refine ⟨good.values.quiet quiet, good.tickets.quiet quiet fewer (fun _ _ _ => rfl)
      fun q join' waits' => ?_⟩
    rcases joining_of_join waits' with before | ⟨here, isJoin⟩
    · exact before
    · rw [here, waits]
      exact isJoin
  · rw [failed]
    refine ⟨good.values.quiet quiet, good.tickets.quiet quiet fewer (fun _ _ _ => rfl) ?_⟩
    exact fun q join waits => (update_none_eq_some waits).2
  · rw [done] at ran ⊢
    refine ⟨values_joined good.values grouped listed ran, ?_⟩
    apply good.tickets.joined grouped listed ran rfl fewer
    · rw [isPid]
      exact notMade
    · exact fun _ _ _ => rfl
    · exact fun q join waits => (update_none_eq_some waits).2
    · intro q waits' group'
      obtain ⟨other, waits'⟩ := update_none_eq_some waits'
      exact other (good.tickets.single q p join waits' waits group' group)

theorem good_threadExit {cpu : Nat → Bool} (onCpu : s.m.cpu p = true)
    (group : s.m.k.masterOf p = master) (ran : thread_exit s.m.k p retval = .ok t) :
    Values master t (passed s.left (s.m.k.proc p) retval) ∧
      Tickets master ⟨t, cpu, s.m.joining⟩ s.made s.asked := by
  have grouped := good.base.grouped
  have live := good.base.live onCpu
  unfold passed
  have stays : ∀ {gone head}, Ended gone head s.m.k t →
      Tickets master ⟨t, cpu, s.m.joining⟩ s.made s.asked := by
    intro gone head ends
    apply good.tickets.keep (List.Sublist.refl _) (fun _ _ _ => rfl)
    · exact fun _ _ waits => waits
    · intro q _ _
      unfold Kernel.masterOf
      rw [(ends.ties q).master]
    · intro i w listed _
      exact ⟨(congrFun (ends.ties master).workerthread i).trans listed, (ends.record w).1⟩
  cases link : (s.m.k.proc p).master with
  | none =>
    unfold thread_exit at ran
    rw [link] at ran
    have ends := ended_exit grouped live.settled ran
    refine ⟨?_, stays ends⟩
    rw [group] at ends
    exact values_exit good.values ends grouped (exit_record ran master).retvals
  | some head =>
    rw [(masterOf_worker link).symm.trans group] at link
    exact ⟨values_thread_exit good.values grouped live link ran,
      stays (ended_thread_exit grouped live link ran)⟩

theorem Good.calm {next : Machine} (base : Base next.k next.cpu) (quiet : Quiet master s.m.k next.k)
    (waits : next.joining = s.m.joining) : Good master { s with m := next } := by
  refine ⟨base, good.values.quiet quiet, good.tickets.quiet quiet (List.Sublist.refl _)
      (fun _ _ _ => rfl) ?_⟩
  intro q join waiting
  rw [waits] at waiting
  exact waiting

theorem good_step {event : Event} (single : Single master s event) (gentle : Gentle s.m event)
    (stepped : journalStep s event = some after) : Good master after := by
  obtain ⟨next, taken, result⟩ := Option.map_eq_some_iff.mp stepped
  have base := base_step good.base gentle taken
  have grouped := good.base.grouped
  rw [← result]
  cases did_of_step taken with
  | @threadCreate p arg _ _ onCpu ran =>
    refine ⟨base, values_thread_create good.values grouped single ran, ?_⟩
    show Tickets master _ (created s.m.k p arg ++ s.made) s.asked
    rw [created_eq ran]
    exact tickets_thread_create good.tickets good.values grouped single ran
  | threadExit onCpu ran =>
    obtain ⟨values, tickets⟩ := good_threadExit good onCpu single ran
    exact ⟨base, values, tickets⟩
  | @threadJoin p | @joinFree p =>
    obtain ⟨onCpu, _, t, progress, ran, same⟩ := join_eq_some taken
    rw [same] at base ⊢
    obtain ⟨values, tickets⟩ := good_threadJoin good onCpu single ran
    refine ⟨base, ?_, tickets⟩
    show Values master (s.m.join p _ t progress).k s.left
    rwa [join_kernel]
  | @joinAgain p _ t progress onCpu waits looks =>
    obtain ⟨values, tickets⟩ := good_joinAgain good onCpu single waits looks
    refine ⟨base, ?_, tickets⟩
    show Values master (s.m.join p _ t progress).k s.left
    rwa [join_kernel]
  | sbrk _ ran => exact good.calm base (quiet_growproc ran) rfl
  | dispatch ready _ => exact good.calm base (quiet_move (.inl ready) (.inr (.inl rfl))) rfl
  | yield onCpu => exact good.calm base (quiet_move (good.base.live onCpu) (.inl rfl)) rfl
  | sleep onCpu => exact good.calm base (quiet_move (good.base.live onCpu) (.inr (.inr rfl))) rfl
  | wakeup => exact good.calm base (quiet_wakeup1 s.m.k _) rfl
  | fork | exit | wait | exec | kill => exact single.elim

end

/-- Nothing was made or joined yet. -/
def Journal.start (m : Machine) : Journal := ⟨m, [], fun _ => 0, fun _ => none⟩

/-- `master` is a process without threads, and pids are given in order. -/
structure Starts (master : Nat) (m : Machine) : Prop extends Lone master m where
  pids : ∀ q, (m.k.proc q).pid < m.k.nextpid

theorem good_start (starts : Starts master m) : Good master (Journal.start m) := by
  have empty : ∀ {i w}, (m.k.proc master).workerthread i ≠ some w := by
    intro i w listed
    rw [starts.alone i] at listed
    cases listed
  refine ⟨starts.base, ⟨starts.root, starts.live.settled.1, starts.pids, ?_, ?_, ?_,
      fun _ _ => rfl⟩, ?_⟩
  · exact fun i w listed => absurd listed empty
  · exact fun i w v listed => absurd listed empty
  · exact fun _ i w listed => absurd listed empty
  refine ⟨nodup_nil, fun pid member => absurd member not_mem_nil, ?_, ?_⟩
  · intro p join waits group
    rw [show (Journal.start m).m.joining p = none from starts.idle p group] at waits
    cases waits
  · intro p p' join waits _ group
    rw [show (Journal.start m).m.joining p = none from starts.idle p group] at waits
    cases waits

theorem starts_boot {mem : Vm.Mem} {code : Nat → UInt8} (nodup : mem.freelist.Nodup)
    (booted : userinit (Kernel.boot mem) code = .ok k) (isInit : k.initproc = some p) :
    Starts p (Machine.start k) := by
  refine ⟨lone_boot nodup booted isInit, fun q => ?_⟩
  obtain ⟨_, nextpid, _, _, _, _, _, table⟩ := userinit_slot booted
  show (k.proc q).pid < k.nextpid
  rw [nextpid, table, update_apply]
  split
  · exact Nat.one_lt_two
  · exact Nat.two_pos

/-- For each interleaving of calls by the members of one group in which each thread is joined once,
and the process ends only when no other of its threads runs: a join that ends with 0 gives the value
that the thread passed to `thread_exit` and frees its entry, and the values of threads that were not
joined stay. -/
theorem join_delivers {events : List Event} {last : Journal} (starts : Starts master m)
    (single : Run.Steps journalStep (Single master) (Journal.start m) events)
    (gentle : Run.Steps journalStep (fun s => Gentle s.m) (Journal.start m) events)
    (run : Run.exec journalStep (Journal.start m) events = some last) :
    Run.Steps journalStep (Delivers master) (Journal.start m) events ∧ Pending master last := by
  have start := good_start starts
  have both := single.and gentle
  have keeps : ∀ (s : Journal) (event : Event) (after : Journal), Good master s →
      Single master s event ∧ Gentle s.m event → journalStep s event = some after →
        Good master after :=
    fun s event after good allowed stepped => good_step good allowed.1 allowed.2 stepped
  constructor
  · exact Run.steps_of_invariant (Good master) keeps (fun s event good allowed =>
      good.delivers allowed.1)
      start both
  · have good := Run.exec_invariant (Good master) keeps start both run
    exact fun i w v listed passed => (good.values.pending i w v listed passed).2

/-- A thread is joined before it ends and another one after that, in the same entry of the table. -/
def twoJoins : List Event :=
  [.dispatch 0, .threadCreate 0 0, .dispatch 1, .threadJoin 0 2, .threadExit 1 7,
      .dispatch 0, .joinAgain 0,
    .threadCreate 0 0, .dispatch 1, .threadExit 1 9, .threadJoin 0 3]

theorem join_delivers_small : ∃ k last, Starts 0 (Machine.start k) ∧
    Run.Steps journalStep (Single 0) (Journal.start (Machine.start k)) twoJoins ∧
    Run.Steps journalStep (fun s => Gentle s.m) (Journal.start (Machine.start k)) twoJoins ∧
    Run.exec journalStep (Journal.start (Machine.start k)) twoJoins = some last ∧
    Run.Steps journalStep (Delivers 0) (Journal.start (Machine.start k)) twoJoins ∧
      Pending 0 last := by
  obtain ⟨k, last, booted, ends, isInit, both⟩ := run_small journalStep
    (fun k => Journal.start (Machine.start k)) twoJoins (fun k _ => k.initproc = some 0 ∧
      Run.Steps journalStep (fun s event => Single 0 s event ∧ Gentle s.m event)
        (Journal.start (Machine.start k)) twoJoins) (by decide +kernel)
  have starts := starts_boot smallMem_nodup booted isInit
  have single := both.mono fun _ _ allowed => allowed.1
  have gentle := both.mono fun _ _ allowed => allowed.2
  exact ⟨k, last, starts, single, gentle, ends, join_delivers starts single gentle ends⟩

/-- The child of the first process makes two threads, and ends with `thread_exit` while one of them
runs. -/
def endsEarly : List Event := [.threadCreate 1 0, .threadCreate 1 0, .dispatch 2, .threadExit 1 5]

/-- The thread that runs joins the other one, which never called `thread_exit`, and gets 0. -/
theorem join_without_exit :
    ((Tables.afterBoot [.dispatch 0, .fork 0, .dispatch 1]).map fun m =>
      (decide (Run.Steps journalStep (Single 1) (Journal.start m) (endsEarly ++ [.threadJoin 2 4])),
        (Run.exec journalStep (Journal.start m) endsEarly).map fun s =>
          (s.left 4, (s.m.k.proc 3).pid, (thread_join s.m.k 2 4).toOption.map Prod.snd))) =
      some (true, some (none, 4, some (.returned (some 0)))) := by
  decide +kernel

end Xv6.Process.Join
