import Mathlib.Algebra.Order.BigOperators.Group.Finset
import Xv6.Process.Ticks

/- How long a boost can be postponed. A tick that ends no quantum leaves a tick of an open quantum
with its process, so without a way to take such ticks back there are not many of them. -/
namespace Xv6.Process.Boost

open Function Outcome Mlfq Option

inductive Event where
  | tick (p : Nat)
  /-- The system call `yield`. -/
  | yield (p : Nat)
  | sleep (p : Nat) (chan : Option Chan)
  | fork (p : Nat)
  | wakeup (chan : Option Chan)
  | dispatch (p : Nat)

/-- The scheduler of some CPU may take any RUNNABLE process. -/
def step (k : Kernel) : Event → Option Kernel
  | .tick p => Ticks.step k (.tick p)
  | .yield p => Ticks.step k (.yield p)
  | .sleep p chan => Queue.step k (.sleep p chan)
  | .fork p => Queue.step k (.fork p)
  | .wakeup chan => some (wakeup1 k chan)
  | .dispatch p => Queue.step k (.dispatch p)

variable {k t u : Kernel} {p q level : Nat} {old middle new : Proc} {event : Event}
    {found yields : Bool}

/-- The process is in the queue of its level. -/
def AtLevel (k : Kernel) (p : Nat) : Prop :=
  ∃ i < NPROC, (k.queues (k.proc p).level).holdingproc i = some p

/-- A process of the MLFQ without threads. -/
structure Plain (p : Proc) : Prop where
  isstride : p.isstride = false
  isthread : p.isthread = false
  level : p.level < 3

/-- The process moves to the start of a level, or it stays where it is. -/
structure Moved (old new : Proc) : Prop where
  plain : Plain old → Plain new
  place : new.fqtick = 0 ∨ new.fqtick = old.fqtick ∧ new.level = old.level

theorem Moved.refl (old : Proc) : Moved old old := ⟨id, .inr ⟨rfl, rfl⟩⟩

theorem Moved.trans (first : Moved old middle) (second : Moved middle new) : Moved old new := by
  refine ⟨second.plain ∘ first.plain, ?_⟩
  rcases second.place with zero | ⟨ticks, level⟩
  · exact .inl zero
  · rw [ticks, level]
    exact first.place

/-- What moves between the queues do to all processes. -/
structure Moves (k t : Kernel) : Prop where
  proc : ∀ q, Moved (k.proc q) (t.proc q)
  tick : t.tick ≤ k.tick
  queues : ∀ q, AtLevel t q → (t.proc q).fqtick = 0 ∨ AtLevel k q

theorem Moves.refl (k : Kernel) :
    Moves k k := ⟨fun _ => Moved.refl _, le_refl _, fun _ here => .inr here⟩

theorem Moves.trans (first : Moves k u) (second : Moves u t) : Moves k t := by
  refine ⟨fun q => (first.proc q).trans (second.proc q), second.tick.trans first.tick,
      fun q here => ?_⟩
  rcases second.queues q here with zero | before
  · exact .inl zero
  · rcases first.queues q before with zero | earlier
    · rcases (second.proc q).place with zero | ⟨ticks, _⟩
      · exact .inl zero
      · exact .inl (ticks.trans zero)
    · exact .inr earlier

theorem moved_update (table : t.proc = update k.proc p new) (moved : Moved (k.proc p) new)
    (q : Nat) : Moved (k.proc q) (t.proc q) := by
  rw [table]
  exact Update.rel moved Moved.refl q

theorem moves_of_update (queues : t.queues = k.queues) (tick : t.tick = k.tick)
    (table : t.proc = update k.proc p new) (plain : Plain (k.proc p) → Plain new)
    (ticks : new.fqtick = (k.proc p).fqtick) (level : new.level = (k.proc p).level) :
    Moves k t := by
  refine ⟨moved_update table ⟨plain, .inr ⟨ticks, level⟩⟩, tick.le, fun q here => .inr ?_⟩
  have same : (t.proc q).level = (k.proc q).level := by
    rw [table]
    exact Update.same Proc.level level q
  unfold AtLevel at here
  rwa [queues, same] at here

theorem holds_before {item : Option Nat} {total : Int} {i j place : Nat}
    (queues : t.queues = update k.queues place { k.queues place with
      total := total, holdingproc := update (k.queues place).holdingproc i item })
    (here : (t.queues level).holdingproc j = some q) :
    item = some q ∨ (k.queues level).holdingproc j = some q := by
  rw [queues, update_apply] at here
  split at here
  · rename_i same
    dsimp only at here
    rw [update_apply] at here
    split at here
    · exact .inl here
    · rw [same]
      exact .inr here
  · exact .inr here

theorem pop_tick (ran : pop_MLFQ k p = .ok (t, found)) : t.tick = k.tick := by
  unfold pop_MLFQ at ran
  dsimp only at ran
  split at ran
  · split at ran
    · cases ran
      rfl
    · cases ran
      rfl
  · cases ran

theorem pop_moves (ran : pop_MLFQ k p = .ok (t, found)) :
    found = false ∧ t = k ∧ ¬ AtLevel k p ∨
    found = true ∧ AtLevel k p ∧ Moves k t ∧ (t.proc p).fqtick = 0 := by
  obtain ⟨_, ⟨no, same, absent⟩ | ⟨i, yes, inside, holds, table, queues⟩⟩ := pop_cases ran
  · exact .inl ⟨no, same, fun ⟨i, small, here⟩ => absent i small here⟩
  have own : (t.proc p).fqtick = 0 := by rw [table, update_self]
  refine .inr ⟨yes, ⟨i, inside, holds⟩,
      ⟨moved_update table ⟨fun plain => ⟨plain.1, plain.2, plain.3⟩,
    .inl rfl⟩, (pop_tick ran).le, fun q ⟨j, small, here⟩ => ?_⟩, own⟩
  by_cases other : q = p
  · rw [other]
    exact .inl own
  · rw [table, update_of_ne other] at here
    exact .inr ⟨j, small, (holds_before queues here).resolve_left (nomatch ·)⟩

theorem push_moves (low : level < 3) : Moves k (push_MLFQ k p level).1 := by
  have tick : (push_MLFQ k p level).1.tick = k.tick := by
    unfold push_MLFQ
    split <;> rfl
  rcases push_cases k p level with ⟨same, _⟩ | ⟨i, t, _, _, same, table, queues⟩
  · rw [same]
    exact Moves.refl k
  rw [same] at tick ⊢
  refine ⟨moved_update table ⟨fun plain => ⟨rfl, plain.isthread, low⟩, .inl rfl⟩, tick.le,
    fun q ⟨j, small, here⟩ => ?_⟩
  dsimp only at here ⊢
  by_cases other : q = p
  · rw [table, other, update_self]
    exact .inl rfl
  · rw [table, update_of_ne other] at here
    exact .inr ⟨j, small, (holds_before queues here).resolve_left
      fun same => other (Option.some.inj same).symm⟩

theorem level_change_moves (low : level < 3) (ran : level_change_MLFQ k p level = .ok (t, found)) :
    t = k ∧ ¬ AtLevel k p ∨ AtLevel k p ∧ Moves k t ∧ (t.proc p).fqtick = 0 := by
  obtain ⟨⟨u, popped⟩, pop, ran⟩ := bind_eq_ok.mp ran
  rcases pop_moves pop with ⟨no, same, absent⟩ | ⟨yes, here, moves, zero⟩
  · rw [no] at ran
    cases ran
    exact .inl ⟨same, absent⟩
  have pushed : Moves u (push_MLFQ u p level).1 := push_moves low
  rw [yes] at ran
  have same : t = (push_MLFQ u p level).1 := congrArg Prod.fst (Except.ok.inj ran).symm
  rw [same]
  refine .inr ⟨here, moves.trans pushed, ?_⟩
  rcases (pushed.proc p).place with zero' | ⟨same, _⟩
  · exact zero'
  · exact same.trans zero

theorem boost_moves (ran : boost_priority k = .ok t) : Moves k t ∧ t.tick = 0 := by
  obtain ⟨u, loop, ran⟩ := bind_eq_ok.mp ran
  cases ran
  refine ⟨?_, rfl⟩
  have moves : Moves k u := by
    refine foldlM_ok (fun _ v => Moves k v) ?_ (Moves.refl k) loop
    intro _ p _ v w _ kept round
    split at round
    · obtain ⟨⟨x, found⟩, changed, round⟩ := bind_eq_ok.mp round
      cases round
      rcases level_change_moves (by decide) changed with ⟨rfl, _⟩ | ⟨_, moves, _⟩
      · exact kept
      · exact kept.trans moves
    · cases round
      exact kept
  exact ⟨moves.proc, Nat.zero_le _, moves.queues⟩

/-- The ticks of the open quantum of a process. -/
def used (p : Proc) : Nat := if p.state = .unused then 0 else p.fqtick % length p.level

theorem used_le (p : Proc) : used p ≤ 19 := by
  have bound : ∀ level, p.fqtick % length level ≤ 19
    | 0 | 1 | _ + 2 => by
      simp only [length]
      omega
  unfold used
  split
  · omega
  · exact bound _

/-- The processes are processes of the MLFQ, and one in the queue of its level is due to leave it at
the end of a quantum. -/
structure Regular (k : Kernel) : Prop where
  inside : ∀ p, (k.proc p).state ≠ .unused → p < NPROC
  plain : ∀ p, Plain (k.proc p)
  aged : ∀ p, AtLevel k p → ¬ Spent (k.proc p).level (k.proc p).fqtick

theorem aged_moves (aged : AtLevel k q → ¬ Spent (k.proc q).level (k.proc q).fqtick)
    (moves : Moves k t) (here : AtLevel t q) : ¬ Spent (t.proc q).level (t.proc q).fqtick := by
  intro spent
  have fresh : (t.proc q).fqtick ≠ 0 := by
    intro zero
    rw [zero] at spent
    unfold Spent at spent
    omega
  obtain ⟨ticks, level⟩ := (moves.proc q).place.resolve_left fresh
  rw [ticks, level] at spent
  exact aged ((moves.queues q here).resolve_left fresh) spent

theorem Regular.moves (regular : Regular k) (moves : Moves k t)
    (inside : ∀ q, (t.proc q).state ≠ .unused → q < NPROC) : Regular t :=
  ⟨inside, fun q => (moves.proc q).plain (regular.plain q),
    fun q here => aged_moves (regular.aged q) moves here⟩

theorem spent_ends {ticks : Nat} (before : ¬ Spent level ticks) (after : Spent level (ticks + 1)) :
    (ticks + 1) % length level = 0 := by
  unfold Spent at *
  rcases after with ⟨rfl, _⟩ | ⟨rfl, _⟩
  · simp only [length]
    omega
  · simp only [length]
    omega

/-- `tick_add_MLFQ` up to the test for the end of a quantum. -/
theorem demoted_moves (regular : Regular k) (ran : demoted k p = .ok (u, found)) :
    Moves (counted k p) u ∧
    (u = counted k p ∨ ((k.proc p).fqtick + 1) % length (k.proc p).level = 0) ∧
    ∀ q, AtLevel u q → ¬ Spent (u.proc q).level (u.proc q).fqtick := by
  have level : ∀ q, ((counted k p).proc q).level = (k.proc q).level := Update.same Proc.level rfl
  have holds : ∀ q, AtLevel (counted k p) q → AtLevel k q := by
    intro q here
    unfold AtLevel at here
    rwa [level q] at here
  have others : ∀ q, q ≠ p → AtLevel (counted k p) q →
      ¬ Spent ((counted k p).proc q).level ((counted k p).proc q).fqtick := by
    intro q other here
    rw [counted_proc, update_of_ne other]
    exact regular.aged q (holds q here)
  have own : ((counted k p).proc p).fqtick = (k.proc p).fqtick + 1 := by
    rw [counted_proc, update_self]
  unfold demoted at ran
  split at ran
  · rename_i spent
    have low : (k.proc p).level + 1 < 3 := by
      unfold Spent at spent
      omega
    rcases level_change_moves low ran with ⟨same, absent⟩ | ⟨here, moves, zero⟩
    · rw [same]
      refine ⟨Moves.refl _, .inl rfl, fun q here => others q (fun isOwn => ?_) here⟩
      rw [isOwn] at here
      exact absent here
    · refine ⟨moves, .inr (spent_ends (regular.aged p (holds p here)) spent), fun q place => ?_⟩
      by_cases isOwn : q = p
      · rw [isOwn, zero]
        unfold Spent
        omega
      · exact aged_moves (others q isOwn) moves place
  · rename_i fresh
    cases ran
    refine ⟨Moves.refl _, .inl rfl, fun q here => ?_⟩
    by_cases isOwn : q = p
    · rw [isOwn, level p, own]
      exact fresh
    · exact others q isOwn here

/-- The test for the end of a quantum. -/
theorem quantum_moves {allot size : Nat} (ran : quantum k allot size = .ok (t, yields)) :
    Moves k t ∧ (t.tick ≤ 200 ∨ t = k ∧ allot % size ≠ 0) := by
  unfold quantum at ran
  dsimp only at ran
  split at ran
  · split at ran
    · obtain ⟨u, boosted, ran⟩ := bind_eq_ok.mp ran
      cases ran
      obtain ⟨moves, zero⟩ := boost_moves boosted
      exact ⟨moves, .inl (by omega)⟩
    · cases ran
      exact ⟨Moves.refl _, .inl (by omega)⟩
  · rename_i inner
    cases ran
    exact ⟨Moves.refl _, .inr ⟨rfl, inner⟩⟩

theorem regular_tick (regular : Regular k) (ran : tick_add_MLFQ k p = .ok (t, yields)) :
    Regular t ∧
      (t.tick ≤ 200 ∨ t = counted k p ∧ ((k.proc p).fqtick + 1) % length (k.proc p).level ≠ 0) := by
  obtain ⟨mlfq, alone, low⟩ := regular.plain p
  have states := fun q => ((Sched.tick_returned ran).2.seat q).2.2.2.1
  rw [tick_add_eq alone mlfq low] at ran
  obtain ⟨⟨u, moved⟩, demotes, ends⟩ := bind_eq_ok.mp ran
  obtain ⟨moves, inner, aged⟩ := demoted_moves regular demotes
  obtain ⟨last, ended⟩ := quantum_moves ends
  have plain : ∀ q, Plain ((counted k p).proc q) := by
    intro q
    rw [counted_proc, update_apply]
    split
    · exact ⟨mlfq, alone, low⟩
    · exact regular.plain q
  refine ⟨⟨fun q used => regular.inside q ?_, fun q => ((moves.trans last).proc q).plain (plain q),
    fun q here => aged_moves (aged q) last here⟩, ?_⟩
  · rw [states q] at used
    exact used
  · rcases ended with few | ⟨same, within⟩
    · exact .inl few
    · exact .inr ⟨same.trans (inner.resolve_right within), within⟩

/-- A process keeps its place, with no more ticks. -/
structure Kept (old new : Proc) : Prop where
  isstride : new.isstride = old.isstride
  isthread : new.isthread = old.isthread
  level : new.level = old.level
  ticks : new.fqtick ≤ old.fqtick
  state : new.state ≠ .unused → old.state ≠ .unused

theorem Regular.kept (regular : Regular k) (queues : t.queues = k.queues)
    (kept : ∀ q, Kept (k.proc q) (t.proc q)) : Regular t := by
  refine ⟨fun q busy => regular.inside q ((kept q).state busy), fun q => ?_, fun q here spent => ?_⟩
  · obtain ⟨mlfq, alone, low⟩ := regular.plain q
    exact ⟨(kept q).isstride.trans mlfq, (kept q).isthread.trans alone, (kept q).level ▸ low⟩
  have ticks := (kept q).ticks
  unfold AtLevel at here
  rw [queues, (kept q).level] at here
  rw [(kept q).level] at spent
  apply regular.aged q here
  unfold Spent at spent ⊢
  omega

theorem kept_set (kept : Kept (k.proc p) new) (q : Nat) : Kept (k.proc q)
    ((k.setProc p new).proc q) := by
  exact Update.rel kept (fun _ => ⟨rfl, rfl, rfl, le_refl _, id⟩) q

theorem allocprocRest_moves (ran : allocprocRest k p = (t, true)) : Moves k t := by
  unfold allocprocRest at ran
  split at ran
  · cases ran
  rename_i u allocated
  obtain ⟨m, frame, _, same⟩ := allocStack_eq_true allocated
  cases ran
  have stacked : Moves k u := by
    rw [same]
    exact moves_of_update rfl rfl rfl (fun plain => ⟨plain.1, plain.2, plain.3⟩) rfl rfl
  have pushed : Moves u (push_MLFQ u p 0).1 := push_moves (by decide)
  refine (stacked.trans pushed).trans ?_
  exact moves_of_update rfl rfl rfl (fun plain => ⟨plain.1, plain.2, plain.3⟩) rfl rfl

theorem fork_moves {made : Option Nat} (ran : fork k p = .ok (t, made)) : Moves k t := by
  rcases fork_eq ran with ⟨_, same⟩ | ⟨np, _, rest⟩
  · rw [same]
    exact Moves.refl k
  have claimed : Moves k (k.claim np) :=
    moves_of_update rfl rfl (claim_proc k np) (fun plain => ⟨plain.1, plain.2, plain.3⟩) rfl rfl
  apply claimed.trans
  rcases rest with ⟨_, failed⟩ | ⟨u, allocated, ran⟩
  · rw [(allocStack_false (allocprocRest_false failed)).1]
    exact moves_of_update rfl rfl rfl (fun plain => ⟨plain.1, plain.2, plain.3⟩) rfl rfl
  apply (allocprocRest_moves allocated).trans
  obtain ⟨e, dir, m, _, _, ⟨_, _, page, _, same⟩ | ⟨d, new, _, _, same⟩⟩ := forkRest_eq ran
  · rw [same]
    exact moves_of_update rfl rfl rfl (fun plain => ⟨plain.1, plain.2, plain.3⟩) rfl rfl
  · rw [same]
    exact moves_of_update rfl rfl rfl (fun plain => ⟨plain.1, plain.2, plain.3⟩) rfl rfl

/-- The ticks since the last boost, but 200, are ticks of open quanta. -/
structure Bound (k : Kernel) : Prop extends Regular k where
  tick : k.tick ≤ 200 + ∑ p ∈ Finset.range NPROC, used (k.proc p)

theorem Bound.keep (bound : Bound k) (regular : Regular t) (tick : t.tick ≤ k.tick)
    (kept : ∀ q, used (k.proc q) ≤ used (t.proc q)) : Bound t := by
  have more := Finset.sum_le_sum fun q (_ : q ∈ Finset.range NPROC) => kept q
  have before := bound.tick
  exact ⟨regular, by omega⟩

/-- A tick that ends no quantum is one of an open quantum. -/
theorem used_counted (busy : old.state ≠ .unused)
    (within : (old.fqtick + 1) % length old.level ≠ 0) :
    used { old with fqtick := old.fqtick + 1 } = used old + 1 := by
  unfold used
  rw [if_neg busy, if_neg busy]
  have count : ∀ level, (old.fqtick + 1) % length level ≠ 0 →
      (old.fqtick + 1) % length level = old.fqtick % length level + 1
    | 0, open_ | 1, open_ | _ + 2, open_ => by
      simp only [length] at *
      omega
  exact count old.level within

section

variable (bound : Bound k)
include bound

theorem bound_tick (running : (k.proc p).state = .running)
    (ran : tick_add_MLFQ k p = .ok (t, yields)) :
    Bound t := by
  obtain ⟨regular, few | ⟨same, within⟩⟩ := regular_tick bound.toRegular ran
  · exact ⟨regular, by omega⟩
  have busy : (k.proc p).state ≠ .unused := by
    rw [running]
    exact fun no => nomatch no
  have counts := used_counted busy within
  have more : ∑ q ∈ Finset.range NPROC, used (k.proc q) < ∑ q ∈ Finset.range NPROC,
      used (t.proc q) := by
    rw [same, counted_proc]
    apply Finset.sum_lt_sum
    · intro q _
      rw [update_apply]
      split
      · rename_i here
        rw [here, counts]
        exact Nat.le_succ _
      · exact le_refl _
    · refine ⟨p, Finset.mem_range.mpr (bound.inside p busy), ?_⟩
      rw [update_self, counts]
      exact Nat.lt_succ_self _
  have before := bound.tick
  have one : t.tick = k.tick + 1 := by
    rw [same]
    rfl
  exact ⟨regular, by omega⟩

theorem bound_switch (before : (k.proc p).state ≠ .unused) (after : new.state ≠ .unused)
    (rank : new.isstride = (k.proc p).isstride ∧ new.isthread = (k.proc p).isthread ∧
      new.level = (k.proc p).level ∧ new.fqtick = (k.proc p).fqtick) : Bound (k.setProc p new) := by
  obtain ⟨isstride, isthread, level, ticks⟩ := rank
  refine bound.keep (bound.toRegular.kept rfl (kept_set ⟨isstride, isthread, level, ticks.le,
      fun _ => before⟩))
    (le_refl _) fun q => ?_
  rw [setProc_proc, update_apply]
  split
  · rename_i here
    rw [here, used, used, if_neg before, if_neg after, level, ticks]
  · exact le_refl _

/-- While a boost is due, `yield` is called at the end of a quantum only. -/
def Patient (k : Kernel) : Event → Prop
  | .yield p => k.tick ≤ 200 ∨ (k.proc p).fqtick % length (k.proc p).level = 0
  | _ => True

instance (k : Kernel) (event : Event) : Decidable (Patient k event) := by
  rcases event <;> dsimp only [Patient] <;> infer_instance

theorem bound_yield (running : (k.proc p).state = .running) (patient : Patient k (.yield p)) :
    Bound (Ticks.sys_yield k p) := by
  rw [Ticks.sys_yield_eq]
  have busy : (k.proc p).state ≠ .unused := by
    rw [running]
    exact fun no => nomatch no
  have regular := bound.toRegular.kept (t := k.setProc p { k.proc p with
    fqtick := (k.proc p).fqtick - 1, state := .runnable }) rfl
    (kept_set ⟨rfl, rfl, rfl, Nat.sub_le _ _, fun _ => busy⟩)
  rcases patient with few | ended
  · exact ⟨regular, Nat.le_add_right_of_le few⟩
  refine bound.keep regular (le_refl _) fun q => ?_
  rw [setProc_proc, update_apply]
  split
  · rename_i here
    rw [here, used, if_neg busy, ended]
    exact Nat.zero_le _
  · exact le_refl _

theorem bound_fork {made : Option Nat} (ran : fork k p = .ok (t, made)) : Bound t := by
  have moves := fork_moves ran
  rcases (fork_table ran).2 with same | ⟨np, new, found, table, _⟩
  · exact bound.keep (bound.toRegular.moves moves (same ▸ bound.inside)) moves.tick
      fun q => by rw [same]
  obtain ⟨small, unused⟩ := unusedSlot_spec found
  refine bound.keep (bound.toRegular.moves moves fun q busy => ?_) moves.tick fun q => ?_
  · by_cases isNew : q = np
    · rw [isNew]
      exact small
    · rw [table, update_of_ne isNew] at busy
      exact bound.inside q busy
  · by_cases isNew : q = np
    · rw [isNew, used, if_pos unused]
      exact Nat.zero_le _
    · rw [table, update_of_ne isNew]

theorem bound_wakeup (chan : Option Chan) : Bound (wakeup1 k chan) := by
  have woken : ∀ q, Kept (k.proc q) ((wakeup1 k chan).proc q) ∧
      used (k.proc q) ≤ used ((wakeup1 k chan).proc q) := by
    intro q
    obtain ⟨parent, state, same, _, woken⟩ := wakeup1_bystander 0 k chan q
    rw [same]
    rcases woken with rfl | ⟨asleep, rfl⟩
    · exact ⟨⟨rfl, rfl, rfl, le_refl _, id⟩, le_refl _⟩
    · have busy : (k.proc q).state ≠ .unused := by
        rw [asleep]
        exact fun no => nomatch no
      refine ⟨⟨rfl, rfl, rfl, le_refl _, fun _ => busy⟩, ?_⟩
      rw [used, used, if_neg busy, if_neg fun no => nomatch no]
  exact bound.keep (bound.toRegular.kept rfl fun q => (woken q).1) (le_refl _) fun q => (woken q).2

theorem bound_step (patient : Patient k event) (taken : step k event = some t) : Bound t := by
  cases event with
  | tick p =>
    obtain ⟨running, taken⟩ := ite_none_right_eq_some.mp taken
    obtain ⟨⟨u, yields⟩, ran, rfl⟩ := map_eq_some_iff.mp taken
    have ran := toOption_eq_some.mp ran
    have after := bound_tick bound running ran
    have state : (u.proc p).state = (k.proc p).state :=
      ((Sched.tick_returned ran).2.seat p).2.2.2.1
    dsimp only
    split
    · exact bound_switch after (by rw [state, running]; exact fun no => nomatch no)
        (fun no => nomatch no) ⟨rfl, rfl, rfl, rfl⟩
    · exact after
  | yield p =>
    obtain ⟨running, taken⟩ := ite_none_right_eq_some.mp taken
    cases taken
    exact bound_yield bound running patient
  | sleep p chan =>
    obtain ⟨running, taken⟩ := ite_none_right_eq_some.mp taken
    cases taken
    exact bound_switch bound (by rw [running]; exact fun no => nomatch no) (fun no => nomatch no)
      ⟨rfl, rfl, rfl, rfl⟩
  | fork p =>
    obtain ⟨_, taken⟩ := ite_none_right_eq_some.mp taken
    obtain ⟨made, ran⟩ := toOption_map_fst_eq_some.mp taken
    exact bound_fork bound ran
  | wakeup chan =>
    cases taken
    exact bound_wakeup bound chan
  | dispatch p =>
    obtain ⟨runnable, taken⟩ := ite_none_right_eq_some.mp taken
    cases taken
    exact bound_switch bound (by rw [runnable]; exact fun no => nomatch no) (fun no => nomatch no)
      ⟨rfl, rfl, rfl, rfl⟩

end

/-- From any state of MLFQ processes in which no boost is due. -/
structure Start (k : Kernel) : Prop extends Regular k where
  tick : k.tick ≤ 200

/-- For timer interrupts, system calls `yield`, sleeps and forks of MLFQ processes in any order: no
boost is postponed by more than 20 ticks for each process, if no process yields in the middle of a
quantum while a boost is due. -/
theorem boost_not_postponed (k : Kernel) (start : Start k) (events : List Event) (t : Kernel)
    (run : Run.exec step k events = some t) (patient : Run.Steps step Patient k events) :
    t.tick ≤ 200 + 20 * NPROC := by
  have bound : Bound t := Run.exec_invariant Bound
    (fun _ _ _ bound patient taken => bound_step bound patient taken)
    ⟨start.toRegular, Nat.le_add_right_of_le start.tick⟩ patient run
  have sum : ∑ p ∈ Finset.range NPROC, used (t.proc p) ≤ NPROC * 19 := by
    have each := Finset.sum_le_card_nsmul (Finset.range NPROC) (fun p => used (t.proc p)) 19
      fun p _ => used_le _
    rwa [Finset.card_range] at each
  have total := bound.tick
  omega

/-- The first process is charged a quantum and is dispatched again. -/
def quantum (ticks : Nat) : List Event := List.replicate ticks (.tick 0) ++ [.dispatch 0]

/-- It uses up its quanta on all levels, until the boost takes it from the last level to the
first. -/
def boostedRun : List Event :=
  .dispatch 0 :: (List.replicate 4 (quantum 5) ++ List.replicate 4 (quantum 10) ++
    List.replicate 8 (quantum 20)).flatten ++ [.tick 0, .yield 0]

theorem start_userinit {mem : Vm.Mem} {code : Nat → UInt8}
    (booted : userinit (Kernel.boot mem) code = .ok k) (plain : Plain (k.proc 0))
    (fresh : (k.proc 0).fqtick = 0) (tick : k.tick ≤ 200) : Start k := by
  obtain ⟨_, _, frame, level, fqtick, isstride, d, slots⟩ := userinit_slot booted
  have others : ∀ p, p ≠ 0 → k.proc p = (Kernel.boot mem).proc p := by
    intro p other
    rw [slots, update_of_ne other]
  have unspent : ∀ p, (k.proc p).fqtick = 0 := by
    intro p
    by_cases here : p = 0
    · rw [here]
      exact fresh
    · rw [others p here]
      rfl
  refine ⟨⟨fun p busy => ?_, fun p => ?_, fun p _ spent => ?_⟩, tick⟩
  · by_contra outside
    rw [others p fun here => outside (here ▸ by decide)] at busy
    exact busy rfl
  · by_cases here : p = 0
    · rw [here]
      exact plain
    · rw [others p here]
      exact ⟨rfl, rfl, Nat.zero_lt_succ 2⟩
  · rw [unspent] at spent
    unfold Spent at spent
    omega

theorem boost_not_postponed_first : ∃ k u t, userinit (Kernel.boot smallMem) (fun _ => 0) = .ok k ∧
    Run.exec step k (boostedRun.take 235) = some u ∧ u.tick = 219 ∧ (u.proc 0).level = 2 ∧
    Run.exec step k boostedRun = some t ∧ t.tick = 1 ∧ (t.proc 0).level = 0 ∧
    t.tick ≤ 200 + 20 * NPROC := by
  obtain ⟨k, t, booted, run, facts⟩ := run_small step id boostedRun (fun k t =>
    ((k.proc 0).isstride = false ∧ (k.proc 0).isthread = false ∧ (k.proc 0).level < 3) ∧
    (k.proc 0).fqtick = 0 ∧ k.tick ≤ 200 ∧ Run.Steps step Patient k boostedRun ∧
    ((Run.exec step k (boostedRun.take 235)).map fun u => (u.tick, (u.proc 0).level)) =
      some (219, 2) ∧ t.tick = 1 ∧ (t.proc 0).level = 0) (by decide +kernel)
  obtain ⟨⟨isstride, isthread, level⟩, fresh, tick, patient, middle, ends⟩ := facts
  obtain ⟨u, reached, late⟩ := map_eq_some_iff.mp middle
  rw [Prod.mk.injEq] at late
  have start := start_userinit booted ⟨isstride, isthread, level⟩ fresh tick
  exact ⟨k, u, t, booted, reached, late.1, late.2, run, ends.1, ends.2,
    boost_not_postponed k start _ t run patient⟩

/-- A process at level 0 that was charged no tick. -/
structure Alone (k : Kernel) (p : Nat) : Prop extends Plain (k.proc p) where
  running : (k.proc p).state = .running
  top : (k.proc p).level = 0
  fresh : (k.proc p).fqtick = 0

theorem yields_round (alone : Alone k p) :
    ∃ t, Run.exec step k [.tick p, .yield p, .dispatch p] = some t ∧
    Alone t p ∧ t.tick = k.tick + 1 := by
  have counts : tick_add_MLFQ k p = .ok (counted k p, false) := by
    rw [tick_add_eq alone.isthread alone.isstride alone.level, demoted, alone.top, alone.fresh]
    rfl
  have own : (counted k p).proc p = { k.proc p with fqtick := 1 } := by
    rw [counted_proc, update_self, alone.fresh]
  have first : step k (.tick p) = some (counted k p) := by
    show (if _ then _ else _) = _
    rw [if_pos alone.running, counts]
    rfl
  have second : step (counted k p) (.yield p) = some (Ticks.sys_yield (counted k p) p) := by
    show (if _ then _ else _) = _
    rw [if_pos (by rw [own]; exact alone.running)]
  have back : (Ticks.sys_yield (counted k p) p).proc p =
      { k.proc p with fqtick := 0, state := .runnable } := by
    rw [Ticks.sys_yield_eq, setProc_self, own]
    rfl
  have tick : (Ticks.sys_yield (counted k p) p).tick = k.tick + 1 := by
    rw [Ticks.sys_yield_eq]
    rfl
  generalize Ticks.sys_yield (counted k p) p = v at second back tick
  have third : step v (.dispatch p) = some (v.setProc p { v.proc p with state := .running }) := by
    show (if _ then _ else _) = _
    rw [if_pos (by rw [back])]
  refine ⟨v.setProc p { v.proc p with state := .running }, ?_, ⟨⟨?_, ?_, ?_⟩, ?_, ?_, ?_⟩, tick⟩
  · rw [Run.exec_cons_of_step step first, Run.exec_cons_of_step step second,
      Run.exec_cons_of_step step third, Run.exec_nil]
  all_goals rw [setProc_self, back]
  · exact alone.isstride
  · exact alone.isthread
  · exact alone.level
  · exact alone.top

theorem yields_rounds (n : Nat) (alone : Alone k p) :
    ∃ t, Run.exec step k (List.replicate n [.tick p, .yield p, .dispatch p]).flatten = some t ∧
      t.tick = k.tick + n := by
  induction n generalizing k with
  | zero => exact ⟨k, rfl, rfl⟩
  | succ n ih =>
    obtain ⟨u, round, again, one⟩ := yields_round alone
    obtain ⟨t, rounds, count⟩ := ih again
    refine ⟨t, ?_, by omega⟩
    rw [List.replicate_succ, List.flatten_cons]
    exact Run.exec_append_of step round rounds

/-- The first process yields after each tick, and there is never a boost. -/
theorem boost_postponed : ∃ k t, userinit (Kernel.boot smallMem) (fun _ => 0) = .ok k ∧
    Run.exec step k
      (.dispatch 0 :: (List.replicate 2000 [.tick 0, .yield 0, .dispatch 0]).flatten) = some t ∧
    200 + 20 * NPROC < t.tick := by
  have run : (bootSmall.bind fun k => (step k (.dispatch 0)).map fun m =>
      decide ((m.proc 0).isstride = false ∧ (m.proc 0).isthread = false ∧ (m.proc 0).level = 0 ∧
        (m.proc 0).state = .running ∧ (m.proc 0).fqtick = 0)) = some true := by decide +kernel
  obtain ⟨k, booted, first⟩ := bind_eq_some_iff.mp run
  obtain ⟨m, dispatched, facts⟩ := map_eq_some_iff.mp first
  obtain ⟨isstride, isthread, level, running, fresh⟩ := of_decide_eq_true facts
  obtain ⟨t, rounds, count⟩ := yields_rounds 2000
    (⟨⟨isstride, isthread, by omega⟩, running, level, fresh⟩ : Alone m 0)
  refine ⟨k, t, toOption_eq_some.mp booted, ?_, ?_⟩
  · rw [Run.exec_cons_of_step step dispatched]
    exact rounds
  · rw [count]
    exact Nat.lt_add_left _ (by decide)

end Xv6.Process.Boost
