import Xv6.Process.Effect

/- What the functions of proc.c do to the processes that they are not about. -/
namespace Xv6.Process

open Function Outcome

variable {k t : Kernel} {p q master : Nat} {old middle new : Proc}

/-- What the exit of process `p` may do to another one: pass it to init, or wake it up. -/
def Bystander (p : Nat) (old new : Proc) : Prop :=
  ∃ parent state, new = { old with parent := parent, state := state } ∧
    (parent = old.parent ∨ old.parent = some p) ∧ Woken old.state state

theorem Bystander.refl (p : Nat) (old : Proc) : Bystander p old old :=
  ⟨old.parent, old.state, rfl, .inl rfl, .inl rfl⟩

theorem Bystander.trans (first : Bystander p old middle) (second : Bystander p middle new) :
    Bystander p old new := by
  obtain ⟨parent, state, same, parents, states⟩ := first
  obtain ⟨parent', state', same', parents', states'⟩ := second
  rw [same] at same' parents' states'
  refine ⟨parent', state', same', ?_, states.trans states'⟩
  rcases parents' with kept | child
  · rw [kept]
    exact parents
  · exact .inr (parents.elim (fun kept => kept.symm.trans child) id)

theorem wakeup1_bystander (p : Nat) (k : Kernel) (chan : Option Chan) (q : Nat) :
    Bystander p (k.proc q) ((wakeup1 k chan).proc q) := by
  unfold wakeup1
  dsimp only
  split
  · rename_i wakes
    exact ⟨_, .runnable, rfl, .inl rfl, .inr ⟨wakes.2.1, rfl⟩⟩
  · exact Bystander.refl p _

/-- Nothing changes but the process table. -/
def OnlyTable (k t : Kernel) : Prop := ∃ proc, t = { k with proc := proc }

theorem OnlyTable.refl (k : Kernel) : OnlyTable k k := ⟨k.proc, rfl⟩

theorem OnlyTable.trans {u : Kernel} (first : OnlyTable k u) (second : OnlyTable u t) :
    OnlyTable k t := by
  obtain ⟨_, rfl⟩ := first
  obtain ⟨_, rfl⟩ := second
  exact ⟨_, rfl⟩

theorem OnlyTable.scheduler (only : OnlyTable k t) : t.queues = k.queues ∧
    t.strides = k.strides := by
  obtain ⟨_, rfl⟩ := only
  exact ⟨rfl, rfl⟩

/-- One round of `reparent`. -/
def adopt (p : Nat) (k : Kernel) (c : Nat) : Kernel :=
  if (k.proc c).parent = some p then
    let k := k.setProc c { k.proc c with parent := k.initproc }
    if (k.proc c).state = .zombie then wakeup1 k (k.initproc.map Chan.proc) else k
  else k

theorem reparent_eq (k : Kernel) (p : Nat) : reparent k p = (List.range NPROC).foldl (adopt p) k :=
    rfl

theorem adopt_bystander (p : Nat) (k : Kernel) (c q : Nat) :
    Bystander p (k.proc q) ((adopt p k c).proc q) := by
  unfold adopt
  split
  · rename_i child
    have moved : Bystander p (k.proc q)
        ((k.setProc c { k.proc c with parent := k.initproc }).proc q) :=
      Update.rel ⟨k.initproc, _, rfl, .inr child, .inl rfl⟩ (Bystander.refl p) q
    dsimp only
    split
    · exact moved.trans (wakeup1_bystander p _ _ q)
    · exact moved
  · exact Bystander.refl p _

/-- Who sleeps on `chan` is woken up, and the children of `p` are passed to init. -/
def orphan (k : Kernel) (chan : Option Chan) (p : Nat) : Kernel := reparent (wakeup1 k chan) p

theorem orphan_bystander (k : Kernel) (chan : Option Chan) (p q : Nat) :
    Bystander p (k.proc q) ((orphan k chan p).proc q) := by
  unfold orphan
  apply (wakeup1_bystander p k chan q).trans
  rw [reparent_eq]
  generalize wakeup1 k chan = k
  generalize List.range NPROC = list
  induction list generalizing k with
  | nil => exact Bystander.refl p _
  | cons c rest ih => exact (adopt_bystander p k c q).trans (ih _)

theorem adopt_only (p : Nat) (k : Kernel) (c : Nat) : OnlyTable k (adopt p k c) := by
  unfold adopt
  split
  · dsimp only
    split
    · exact ⟨_, rfl⟩
    · exact ⟨_, rfl⟩
  · exact .refl k

theorem orphan_only (k : Kernel) (chan : Option Chan) (p : Nat) :
    OnlyTable k (orphan k chan p) := by
  have woken : OnlyTable k (wakeup1 k chan) := ⟨_, rfl⟩
  unfold orphan
  apply woken.trans
  rw [reparent_eq]
  generalize wakeup1 k chan = k
  generalize List.range NPROC = list
  induction list generalizing k with
  | nil => exact .refl k
  | cons c rest ih => exact (adopt_only p k c).trans (ih _)

theorem endWorkers_slot (k : Kernel) (master q : Nat) : (endWorkers k master).proc q =
    { k.proc q with state := if q ∈ k.workers master then .zombie else (k.proc q).state } := by
  unfold endWorkers
  generalize k.workers master = list
  induction list generalizing k with
  | nil => rfl
  | cons w rest ih =>
    rw [List.foldl_cons, ih, setProc_proc]
    by_cases here : q = w
    · simp only [here, update_self, List.mem_cons, true_or, if_true, ite_self]
    · simp only [here, update_of_ne here, List.mem_cons, false_or]

theorem endWorkers_only (k : Kernel) (master : Nat) : OnlyTable k (endWorkers k master) := by
  unfold endWorkers
  generalize k.workers master = list
  induction list generalizing k with
  | nil => exact .refl k
  | cons w rest ih => exact OnlyTable.trans ⟨_, rfl⟩ (ih _)

theorem unschedule_slot (ran : unschedule k master = .ok t) :
    ∃ fqtick, (fqtick = 0 ∨ fqtick = (k.proc master).fqtick) ∧
      t.proc = update k.proc master { k.proc master with fqtick := fqtick } := by
  have kept :
    k.proc = update k.proc master { k.proc master with fqtick := (k.proc master).fqtick } :=
    (update_eq_self master k.proc).symm
  unfold unschedule at ran
  split at ran
  · obtain ⟨stride, _, ran⟩ := bind_eq_ok.mp ran
    cases ran
    exact ⟨_, .inr rfl, kept⟩
  obtain ⟨⟨u, found⟩, popped, ran⟩ := bind_eq_ok.mp ran
  cases ran
  rcases (pop_cases popped).2 with ⟨_, same, _⟩ | ⟨i, _, _, _, proc, _⟩
  · rw [same]
    exact ⟨_, .inr rfl, kept⟩
  · exact ⟨0, .inl rfl, proc⟩

theorem masterOf_self (root : (k.proc p).master = none) : k.masterOf p = p := by
  unfold Kernel.masterOf
  rw [root]
  rfl

theorem masterOf_worker (link : (k.proc p).master = some master) : k.masterOf p = master := by
  unfold Kernel.masterOf
  rw [link]
  rfl

theorem exit_eq (ran : exit k p = .ok t) : ∃ v w,
    v = orphan k ((k.proc (k.masterOf p)).parent.map Chan.proc) (k.masterOf p) ∧
    unschedule (endWorkers v (k.masterOf p)) (k.masterOf p) = .ok w ∧
    t = w.setProc (k.masterOf p) { w.proc (k.masterOf p) with state := .zombie } := by
  unfold exit at ran
  dsimp only at ran
  split at ran
  · cases ran
  · obtain ⟨w, unscheduled, ran⟩ := bind_eq_ok.mp ran
    split at ran
    · cases ran
    · cases ran
      exact ⟨_, w, rfl, unscheduled, rfl⟩

/-- `exit` makes zombies of the members of the group. -/
theorem exit_slot (ran : exit k p = .ok t) : ∃ v fqtick,
    v = orphan k ((k.proc (k.masterOf p)).parent.map Chan.proc) (k.masterOf p) ∧
    (fqtick = 0 ∨ fqtick = (v.proc (k.masterOf p)).fqtick) ∧
    (∀ q, Bystander (k.masterOf p) (k.proc q) (v.proc q)) ∧ ∀ q, t.proc q = { v.proc q with
      fqtick := if q = k.masterOf p then fqtick else (v.proc q).fqtick
      state := if q = k.masterOf p ∨ q ∈ k.workers (k.masterOf p) then .zombie
        else (v.proc q).state } := by
  obtain ⟨v, w, orphaned, unscheduled, ended⟩ := exit_eq ran
  obtain ⟨fqtick, ticks, table⟩ := unschedule_slot unscheduled
  rw [endWorkers_slot] at ticks
  have bystander : ∀ q, Bystander (k.masterOf p) (k.proc q) (v.proc q) := by
    rw [orphaned]
    exact orphan_bystander k _ _
  refine ⟨v, fqtick, orphaned, ticks, bystander, fun q => ?_⟩
  have workers : v.workers (k.masterOf p) = k.workers (k.masterOf p) := by
    obtain ⟨parent, state, same, _⟩ := bystander (k.masterOf p)
    unfold Kernel.workers
    rw [same]
  rw [ended, setProc_proc, table]
  by_cases head : q = k.masterOf p
  · rw [head]
    simp only [update_self, endWorkers_slot, true_or, if_true]
  · simp only [head, update_of_ne head, endWorkers_slot, workers, false_or, if_false]

/-- `exit` changes the state of the members of the group; the others are woken up or passed to
init. -/
theorem exit_bystander (ran : exit k p = .ok t) (notMaster : q ≠ k.masterOf p)
    (notWorker : q ∉ k.workers (k.masterOf p)) : Bystander (k.masterOf p) (k.proc q)
    (t.proc q) := by
  obtain ⟨v, fqtick, _, _, bystander, slot⟩ := exit_slot ran
  rw [slot q, if_neg notMaster, if_neg (not_or.mpr ⟨notMaster, notWorker⟩)]
  exact bystander q

/-- A process that is no worker calls `exit`. -/
theorem thread_exit_cases {retval : Nat} (ran : thread_exit k p retval = .ok t) :
    (k.proc p).master = none ∧ exit k p = .ok t ∨ ∃ master, (k.proc p).master = some master := by
  cases link : (k.proc p).master with
  | none =>
    unfold thread_exit at ran
    rw [link] at ran
    exact .inl ⟨rfl, ran⟩
  | some master => exact .inr ⟨master, rfl⟩

/-- A worker becomes a zombie and leaves its value with its master. -/
theorem thread_exit_slot {retval : Nat} (link : (k.proc p).master = some master)
    (ran : thread_exit k p retval = .ok t) : ∃ v, v = orphan k (some (.proc master)) p ∧
    (∀ q, Bystander p (k.proc q) (v.proc q)) ∧ ∀ q, t.proc q = { v.proc q with
      state := if q = p then .zombie else (v.proc q).state
      retvals := if q = master then update (v.proc q).retvals (k.proc p).tindex retval
        else (v.proc q).retvals
      threadcnt := if q = master then (v.proc q).threadcnt - 1 else (v.proc q).threadcnt } := by
  unfold thread_exit at ran
  rw [link] at ran
  cases ran
  refine ⟨_, rfl, orphan_bystander k _ p, fun q => ?_⟩
  obtain ⟨parent, state, same, _⟩ := orphan_bystander k (some (.proc master)) p p
  have index :
    ((orphan k (some (.proc master)) p).proc p).tindex = (k.proc p).tindex := by rw [same]
  rw [← index]
  unfold orphan
  generalize reparent (wakeup1 k (some (.proc master))) p = v
  simp only [setProc_proc]
  by_cases head : q = master
  · subst head
    by_cases here : q = p
    · subst here
      simp only [update_self, if_true]
    · simp only [update_self, update_of_ne here, here, if_true, if_false]
  · by_cases here : q = p
    · subst here
      simp only [update_self, update_of_ne head, head, if_true, if_false]
    · simp only [update_of_ne head, update_of_ne here, head, here, if_false]

theorem thread_exit_only {retval : Nat} (link : (k.proc p).master = some master)
    (ran : thread_exit k p retval = .ok t) : OnlyTable k t := by
  unfold thread_exit at ran
  rw [link] at ran
  cases ran
  have kept := orphan_only k (some (.proc master)) p
  unfold orphan at kept
  generalize reparent (wakeup1 k (some (.proc master))) p = v at kept ⊢
  exact kept.trans ⟨_, rfl⟩

/-- The process keeps its pid, and its state unless it is woken up. -/
def Steady (old new : Proc) : Prop :=
  new.pid = old.pid ∧ Woken old.state new.state

theorem Steady.refl (old : Proc) : Steady old old := ⟨rfl, .inl rfl⟩

theorem Steady.trans (first : Steady old middle) (second : Steady middle new) : Steady old new :=
  ⟨second.1.trans first.1, first.2.trans second.2⟩

theorem Bystander.steady (given : Bystander p old new) : Steady old new := by
  obtain ⟨parent, state, same, _, states⟩ := given
  rw [same]
  exact ⟨rfl, states⟩

theorem kill_slot (k : Kernel) (pid q : Nat) : ∃ killed state,
    (kill k pid).1.proc q = { k.proc q with killed := killed, state := state } ∧
    (killed = (k.proc q).killed ∨ k.slotOf pid = some q) ∧
    Woken (k.proc q).state state := by
  unfold kill
  split
  · exact ⟨_, _, rfl, .inl rfl, .inl rfl⟩
  rename_i p found
  dsimp only
  by_cases here : q = p
  · subst here
    split
    · rename_i asleep
      simp only [setProc_proc, update_self] at asleep ⊢
      exact ⟨_, _, rfl, .inr found, .inr ⟨asleep, rfl⟩⟩
    · simp only [setProc_proc, update_self]
      exact ⟨_, _, rfl, .inr found, .inl rfl⟩
  · split
    all_goals
      simp only [setProc_proc, update_of_ne here]
      exact ⟨_, _, rfl, .inl rfl, .inl rfl⟩

theorem kill_only (k : Kernel) (pid : Nat) : OnlyTable k (kill k pid).1 := by
  unfold kill
  split
  · exact .refl k
  · dsimp only
    split
    · exact ⟨_, rfl⟩
    · exact ⟨_, rfl⟩

theorem kill_steady {pid : Nat} (q : Nat) : Steady (k.proc q) ((kill k pid).1.proc q) := by
  obtain ⟨killed, state, same, _, states⟩ := kill_slot k pid q
  rw [same]
  exact ⟨rfl, states⟩

theorem thread_exit_steady {retval : Nat} (link : (k.proc p).master = some master)
    (ran : thread_exit k p retval = .ok t) (other : q ≠ p) : Steady (k.proc q) (t.proc q) := by
  obtain ⟨v, _, bystander, slot⟩ := thread_exit_slot link ran
  rw [slot q, if_neg other]
  exact (bystander q).steady

end Xv6.Process
