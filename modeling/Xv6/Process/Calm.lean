import Xv6.Process.Results

/- What the functions of proc.c do to the thread fields of the process table. Nothing resets them
when a slot is reclaimed, so a slot is clean only while it has never belonged to a thread group. -/
namespace Xv6.Process

open Function Outcome

variable {master worker : Nat} {progress : Progress}

/-- No trace of threads. -/
structure Plain (p : Proc) : Prop where
  master : p.master = none
  isthread : p.isthread = false
  threadcnt : p.threadcnt = 0
  workerthread : ∀ i, p.workerthread i = none
  freeusrspace : ∀ i, p.freeusrspace i = 0

/-- What `allocproc` has to return. -/
structure Fresh (p : Proc) : Prop extends Plain p where
  killed : p.killed = false

/-- The slots that have been the master of a thread group, and those that have been a worker. -/
structure Roles where
  led : Nat → Bool
  worked : Nat → Bool

/-- The slot has never belonged to a thread group. -/
def Roles.Never (r : Roles) (p : Nat) : Prop := r.led p = false ∧ r.worked p = false
deriving Decidable

def Roles.mark (r : Roles) (master worker : Nat) : Roles :=
  { led := update r.led master true
    worked := update r.worked worker true }

/-- A slot on its way between two processes. -/
def Idle (p : Proc) : Prop := p.state = .unused ∨ p.state = .embryo
deriving Decidable

/-- A slot that has never belonged to a group is plain, and not killed while it is idle. -/
structure Tidy (r : Roles) (proc : Nat → Proc) : Prop where
  plain : ∀ p, r.Never p → Plain (proc p)
  idle : ∀ p, r.Never p → Idle (proc p) → (proc p).killed = false
  master : ∀ p m, (proc p).master = some m → r.led m = true ∧ r.worked p = true
  worker : ∀ p i w, (proc p).workerthread i = some w → r.worked w = true

/-- The thread fields of two entries agree. -/
structure SameThreads (new old : Proc) : Prop where
  master : new.master = old.master
  isthread : new.isthread = old.isthread
  threadcnt : new.threadcnt = old.threadcnt
  workerthread : new.workerthread = old.workerthread
  freeusrspace : new.freeusrspace = old.freeusrspace

theorem SameThreads.plain {new old : Proc} (same : SameThreads new old) (plain : Plain old) :
    Plain new := by
  constructor
  · rw [same.master]
    exact plain.master
  · rw [same.isthread]
    exact plain.isthread
  · rw [same.threadcnt]
    exact plain.threadcnt
  · rw [same.workerthread]
    exact plain.workerthread
  · rw [same.freeusrspace]
    exact plain.freeusrspace

theorem SameThreads.trans {a b c : Proc} (first : SameThreads b a) (second : SameThreads c b) :
    SameThreads c a := by
  constructor
  · exact second.master.trans first.master
  · exact second.isthread.trans first.isthread
  · exact second.threadcnt.trans first.threadcnt
  · exact second.workerthread.trans first.workerthread
  · exact second.freeusrspace.trans first.freeusrspace

/-- What a call may do to a slot outside of all groups. -/
structure Kept (new old : Proc) : Prop where
  same : SameThreads new old
  idle : Idle new → new.killed = false ∨ Idle old ∧ new.killed = old.killed

/-- What a call that makes no thread does to the table. -/
structure Quiet (r : Roles) (old new : Nat → Proc) : Prop where
  kept : ∀ p, r.Never p → Kept (new p) (old p)
  master : ∀ p, (new p).master = (old p).master
  worker : ∀ p i w, (new p).workerthread i = some w → (old p).workerthread i = some w

/-- Moreover it neither makes nor ends an embryo outside of all groups. -/
structure Calm (r : Roles) (old new : Nat → Proc) : Prop extends Quiet r old new where
  still : ∀ p, r.Never p → ((new p).state = .embryo ↔ (old p).state = .embryo)

variable {r : Roles} {proc : Nat → Proc} {new : Proc} {k t u : Kernel} {p q : Nat}

theorem Quiet.tidy {old new : Nat → Proc} (quiet : Quiet r old new) (tidy : Tidy r old) :
    Tidy r new := by
  constructor
  · intro p never
    exact (quiet.kept p never).same.plain (tidy.plain p never)
  · intro p never idle
    rcases (quiet.kept p never).idle idle with clear | ⟨idle, same⟩
    · exact clear
    · rw [same]
      exact tidy.idle p never idle
  · intro p m link
    rw [quiet.master p] at link
    exact tidy.master p m link
  · intro p i w held
    exact tidy.worker p i w (quiet.worker p i w held)

theorem Quiet.set (kept : r.Never p → Kept new (proc p)) (master : new.master = (proc p).master)
    (worker : ∀ i w, new.workerthread i = some w → (proc p).workerthread i = some w) :
    Quiet r proc (update proc p new) := by
  constructor
  · refine (forall_update_iff proc fun q now => r.Never q → Kept now (proc q)).mpr ⟨kept, ?_⟩
    exact fun q _ _ => ⟨⟨rfl, rfl, rfl, rfl, rfl⟩, fun idle => .inr ⟨idle, rfl⟩⟩
  · exact (forall_update_iff proc fun q now => now.master = (proc q).master).mpr
      ⟨master, fun _ _ => rfl⟩
  · exact (forall_update_iff proc fun q now => ∀ i w, now.workerthread i = some w →
      (proc q).workerthread i = some w).mpr ⟨worker, fun _ _ _ _ held => held⟩

/-- What a calm call does to the slot `p`. -/
structure CalmAt (r : Roles) (p : Nat) (old new : Proc) : Prop where
  kept : r.Never p → Kept new old
  master : new.master = old.master
  worker : ∀ i w, new.workerthread i = some w → old.workerthread i = some w
  still : r.Never p → (new.state = .embryo ↔ old.state = .embryo)

variable {old middle : Proc}

theorem Calm.of_slots {old new : Nat → Proc} (slots : ∀ p, CalmAt r p (old p) (new p)) :
    Calm r old new :=
  ⟨⟨fun p => (slots p).kept, fun p => (slots p).master, fun p => (slots p).worker⟩, fun p =>
      (slots p).still⟩

theorem CalmAt.of_same (same : SameThreads new old)
    (idle : Idle new → new.killed = false ∨ Idle old ∧ new.killed = old.killed)
    (still : r.Never p → (new.state = .embryo ↔ old.state = .embryo)) : CalmAt r p old new := by
  refine ⟨fun _ => ⟨same, idle⟩, same.master, fun i w held => ?_, still⟩
  rwa [same.workerthread] at held

theorem CalmAt.refl (p : Nat) (old : Proc) : CalmAt r p old old :=
  .of_same ⟨rfl, rfl, rfl, rfl, rfl⟩ (fun idle => .inr ⟨idle, rfl⟩) fun _ => Iff.rfl

theorem CalmAt.trans (first : CalmAt r p old middle) (second : CalmAt r p middle new) :
    CalmAt r p old new := by
  refine ⟨fun never => ⟨(first.kept never).same.trans (second.kept never).same, fun idle => ?_⟩,
    second.master.trans first.master, fun i w held => first.worker i w (second.worker i w held),
    fun never => (second.still never).trans (first.still never)⟩
  rcases (second.kept never).idle idle with clear | ⟨idle, same⟩
  · exact .inl clear
  · rw [same]
    exact (first.kept never).idle idle

theorem Calm.set (slot : CalmAt r p (proc p) new) : Calm r proc (update proc p new) :=
  .of_slots ((forall_update_iff proc fun q now => CalmAt r q (proc q) now).mpr
    ⟨slot, fun q _ => .refl q _⟩)

theorem CalmAt.touch (same : SameThreads new old) (state : new.state = old.state)
    (killed : new.killed = old.killed) : CalmAt r p old new := by
  apply CalmAt.of_same same
  · intro idle
    unfold Idle at idle
    rw [state] at idle
    exact .inr ⟨idle, killed⟩
  · intro _
    rw [state]

theorem CalmAt.move (same : SameThreads new old) (before : r.Never p → old.state ≠ .embryo)
    (after : new.state ≠ .embryo) (clear : new.state = .unused → new.killed = false) :
    CalmAt r p old new := by
  apply CalmAt.of_same same
  · intro idle
    exact idle.elim (fun unused => .inl (clear unused)) (fun embryo => absurd embryo after)
  · intro never
    exact iff_of_false after (before never)

theorem CalmAt.member (member : ¬ r.Never p) (master : new.master = old.master)
    (worker : ∀ i w, new.workerthread i = some w → old.workerthread i = some w) :
    CalmAt r p old new :=
  ⟨fun never => absurd never member, master, worker, fun never => absurd never member⟩

theorem Calm.kill (busy : r.Never p → ¬ Idle (proc p)) :
    Calm r proc (update proc p { proc p with killed := true }) :=
  .set ⟨fun never => ⟨⟨rfl, rfl, rfl, rfl, rfl⟩, fun idle => absurd idle (busy never)⟩, rfl,
    fun _ _ held => held, fun _ => Iff.rfl⟩

theorem Bystander.calm (given : Bystander q old new) : CalmAt r p old new := by
  obtain ⟨parent, state, same, _, kept | ⟨asleep, awake⟩⟩ := given
  · rw [same]
    exact .touch ⟨rfl, rfl, rfl, rfl, rfl⟩ kept rfl
  · rw [same, awake]
    refine .move ⟨rfl, rfl, rfl, rfl, rfl⟩ (fun _ => ?_) nofun nofun
    rw [asleep]
    exact nofun

theorem Touched.calm {may : Nat → Proc → Proc → Prop} (touched : Touched may k t)
    (each : ∀ q old new, may q old new → CalmAt r q old new) : Calm r k.proc t.proc :=
  .of_slots (touched.1.entry CalmAt.refl (fun _ _ _ _ => CalmAt.trans) each)

theorem not_never_of_led (led : r.led p = true) : ¬ r.Never p := by
  intro never
  rw [never.1] at led
  cases led

theorem not_never_of_worked (worked : r.worked p = true) : ¬ r.Never p := by
  intro never
  rw [never.2] at worked
  cases worked

section Calls

/-- The caller of a function is no embryo outside of all groups. -/
def Awake (r : Roles) (proc : Nat → Proc) (p : Nat) : Prop := r.Never p → (proc p).state ≠ .embryo

theorem Tidy.awake_masterOf (tidy : Tidy r k.proc) (awake : Awake r k.proc p) :
    Awake r k.proc (k.masterOf p) := by
  unfold Kernel.masterOf
  cases link : (k.proc p).master with
  | none => exact awake
  | some m => exact fun never => absurd never (not_never_of_led (tidy.master p m link).1)

theorem Tidy.worked_of_listed (tidy : Tidy r k.proc) {w : Nat} (member : w ∈ k.workers p) :
    ¬ r.Never w := by
  obtain ⟨i, _, held⟩ := mem_workers.mp member
  exact not_never_of_worked (tidy.worker p i w held)

section

variable (tidy : Tidy r k.proc) (awake : Awake r k.proc p)
include tidy awake

theorem exit_calm (ran : exit k p = .ok t) : Calm r k.proc t.proc := by
  obtain ⟨v, fqtick, _, _, bystander, slot⟩ := exit_slot ran
  refine .of_slots fun q => (bystander q).calm.trans ?_
  rw [slot q]
  by_cases worker : q ∈ k.workers (k.masterOf p)
  · exact .member (tidy.worked_of_listed worker) rfl fun _ _ held => held
  by_cases head : q = k.masterOf p
  · simp only [head, true_or, if_true]
    refine .move ⟨rfl, rfl, rfl, rfl, rfl⟩ (fun never embryo => ?_) nofun nofun
    exact tidy.awake_masterOf awake never (((bystander _).calm.still never).mp embryo)
  · simp only [head, worker, or_self, if_false]
    exact .refl q _

theorem thread_exit_calm {retval : Nat} (ran : thread_exit k p retval = .ok t) :
    Calm r k.proc t.proc := by
  obtain ⟨link, ran⟩ | ⟨master, link⟩ := thread_exit_cases ran
  · exact exit_calm tidy awake ran
  obtain ⟨v, _, bystander, slot⟩ := thread_exit_slot link ran
  obtain ⟨leads, works⟩ := tidy.master p master link
  refine .of_slots fun q => (bystander q).calm.trans ?_
  rw [slot q]
  by_cases head : q = master
  · exact .member (not_never_of_led (head ▸ leads)) rfl fun _ _ held => held
  · by_cases here : q = p
    · exact .member (not_never_of_worked (here ▸ works)) rfl fun _ _ held => held
    · simp only [head, here, if_false]
      exact .refl q _

theorem joinLoop_calm {join : Nat} (ran : joinLoop k p join = .ok (t, progress)) :
    Calm r k.proc t.proc := by
  refine (joinLoop_touched ran).calm fun q old new store => ?_
  cases store with
  | sleeps _ caller first chan =>
    refine .move ⟨rfl, rfl, rfl, rfl, rfl⟩ ?_ nofun nofun
    rw [first, caller]
    exact awake
  | gives link free =>
    exact .member (not_never_of_led (tidy.master join q link).1) rfl fun _ _ held => held
  | strikes link i =>
    exact .member (not_never_of_led (tidy.master join q link).1) rfl fun _ _ => held_of_cleared
  | frees _ link isJoin =>
    exact .member (not_never_of_worked (isJoin ▸ (tidy.master join _ link).2)) rfl
      fun _ _ held => held

theorem thread_join_calm {thread : Nat} (ran : thread_join k p thread = .ok (t, progress)) :
    Calm r k.proc t.proc := by
  obtain ⟨w, _, ⟨_, same, _⟩ | looks⟩ := thread_join_eq ran
  · rw [same]
    exact .of_slots fun q => .refl q _
  · exact joinLoop_calm tidy awake looks

theorem wait_calm (ran : wait k p = .ok (t, progress)) : Calm r k.proc t.proc := by
  refine (wait_touched ran).calm fun q old new store => ?_
  cases store with
  | sleeps _ caller first =>
    refine .move ⟨rfl, rfl, rfl, rfl, rfl⟩ ?_ nofun nofun
    rw [first, caller]
    exact awake
  | reclaims _ worker => exact .member (tidy.worked_of_listed worker) rfl fun _ _ held => held
  | @strikes i w _ listed =>
    refine .member (fun never => ?_) rfl fun _ _ => held_of_cleared
    rw [(tidy.plain q never).workerthread i] at listed
    cases listed
  | frees _ dead =>
    refine .move ⟨rfl, rfl, rfl, rfl, rfl⟩ (fun _ embryo => ?_) nofun fun _ => rfl
    rw [embryo] at dead
    exact dead.elim nofun nofun

end

/-- `kill` of a slot between two processes would leave the next one killed. -/
theorem kill_calm {pid : Nat} {found : Bool} (busy : ∀ p, k.slotOf pid = some p → ¬ Idle (k.proc p))
    (ran : kill k pid = (t, found)) : Calm r k.proc t.proc := by
  refine .of_slots fun q => ?_
  obtain ⟨killed, state, same, marks, states⟩ := kill_slot k pid q
  rw [ran] at same
  rw [same]
  rcases states with kept | ⟨asleep, awake⟩
  · rw [kept]
    refine .of_same ⟨rfl, rfl, rfl, rfl, rfl⟩ (fun idle => .inr ⟨idle, ?_⟩) fun _ => Iff.rfl
    exact marks.elim id fun slot => absurd idle (busy q slot)
  · rw [awake]
    refine .move ⟨rfl, rfl, rfl, rfl, rfl⟩ (fun _ => ?_) nofun nofun
    rw [asleep]
    exact nofun

theorem threadRest_calm {thrd arg : Nat} {made : Option Nat} (leads : ¬ r.Never master)
    (works : ¬ r.Never thrd) (ran : threadRest k master thrd arg = .ok (t, made)) :
    Calm r k.proc t.proc := by
  refine (threadRest_touched ran).calm fun q old new store => ?_
  cases store with
  | resizes own sz free =>
    refine .member ?_ rfl fun _ _ held => held
    rcases own with isNew | head
    · exact isNew ▸ works
    · exact head ▸ leads
  | starts isNew => exact .member (isNew ▸ works) rfl fun _ _ held => held

theorem Roles.Never.of_mark (never : (r.mark master worker).Never p) :
    r.Never p ∧ p ≠ master ∧ p ≠ worker := by
  unfold Roles.Never Roles.mark at never
  dsimp only at never
  have notMaster : p ≠ master := by
    intro equal
    rw [equal, update_self] at never
    cases never.1
  have notWorker : p ≠ worker := by
    intro equal
    rw [equal, update_self] at never
    cases never.2
  rw [update_of_ne notMaster, update_of_ne notWorker] at never
  exact ⟨never, notMaster, notWorker⟩

theorem mark_led (r : Roles) (master worker : Nat) : (r.mark master worker).led master = true := by
  unfold Roles.mark
  dsimp only
  rw [update_self]

theorem mark_worked (r : Roles) (master worker : Nat) :
    (r.mark master worker).worked worker = true := by
  unfold Roles.mark
  dsimp only
  rw [update_self]

theorem mark_led_of_led (led : r.led p = true) : (r.mark master worker).led p = true := by
  unfold Roles.mark
  dsimp only
  rw [update_apply]
  split
  · rfl
  · exact led

theorem mark_worked_of_worked (worked : r.worked p = true) :
    (r.mark master worker).worked p = true := by
  unfold Roles.mark
  dsimp only
  rw [update_apply]
  split
  · rfl
  · exact worked

theorem allocthreadRest_tidy (tidy : Tidy r k.proc)
    (ran : allocthreadRest k master p = .ok (t, true)) :
    Tidy (r.mark master p) t.proc := by
  obtain ⟨_, _, frame, i, slot⟩ := allocthreadRest_slot ran
  have others : ∀ q, (r.mark master p).Never q → r.Never q ∧ t.proc q = k.proc q := by
    intro q never
    obtain ⟨before, notMaster, notNew⟩ := never.of_mark
    rw [slot q, if_neg notMaster, if_neg notNew]
    exact ⟨before, rfl⟩
  constructor
  · intro q never
    obtain ⟨before, same⟩ := others q never
    rw [same]
    exact tidy.plain q before
  · intro q never idle
    obtain ⟨before, same⟩ := others q never
    rw [same] at idle ⊢
    exact tidy.idle q before idle
  · intro q m found
    have link : (t.proc q).master = if q = p then some master else (k.proc q).master := by
      rw [slot q]
      split
      all_goals split
      all_goals rfl
    rw [link] at found
    split at found
    · rename_i isNew
      cases found
      rw [isNew]
      exact ⟨mark_led r master p, mark_worked r master p⟩
    · have before := tidy.master q m found
      exact ⟨mark_led_of_led before.1, mark_worked_of_worked before.2⟩
  · intro q j w held
    cases listed_of_allocthread ran held with
    | inl before => exact mark_worked_of_worked (tidy.worker q j w before)
    | inr new =>
      rw [new]
      exact mark_worked r master p

end Calls

end Xv6.Process
