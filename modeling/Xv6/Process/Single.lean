import Xv6.Process.Holders
import Xv6.Process.Passes
import Xv6.Process.Queue

/- One CPU and processes without threads, with the scheduler of the source: how long a process runs
until it has to yield, and what holds of the scheduler's data in all runs. -/
namespace Xv6.Process.Single

open Function Outcome Dispatch Seats Option
open Dispatch (scheduler Ready)
open Queue (Event Fair Member Careful Alone)
open Sched (rank paid Turn RankAfter PassAfter Ledger Owned turn_rank turn_pass)
open Seats (Linked)

variable {k t u : Kernel} {p q level : Nat} {old new : Proc}
    {found yields : Bool} {allot length limit np : Nat} {event : Event}

/-- No process is running. -/
def Idle (k : Kernel) : Prop := ∀ q < NPROC, (k.proc q).state ≠ .running

instance (k : Kernel) : Decidable (Idle k) := inferInstanceAs (Decidable (∀ q < NPROC, _))

/-- A timer interrupt includes the `yield` that follows; `dispatch p` is the scan of `scheduler`
meeting `p`, which only happens if no process runs. -/
def step (k : Kernel) : Event → Option Kernel
  | .tick p => Queue.call k p ((tick_add_MLFQ k p).toOption.map fun (t, yields) =>
    if yields then t.setProc p { t.proc p with state := .runnable } else t)
  | .dispatch p =>
    if Idle k ∧ p < NPROC ∧ (k.proc p).state = .runnable then (scheduler k p).toOption.map Prod.fst
    else none
  | event => Queue.step k event

/-- The ticks that a process has used are counted from zero again, or stay. -/
def Young (old new : Proc) : Prop :=
  new.fqtick = 0 ∨ new.fqtick = old.fqtick ∧ new.level = old.level

theorem Young.refl (old : Proc) : Young old old := .inr ⟨rfl, rfl⟩

theorem Young.trans {middle : Proc} (first : Young old middle) (second : Young middle new) :
    Young old new := by
  rcases second with zero | ⟨ticks, level⟩
  · exact .inl zero
  · rcases first with zero | ⟨ticks', level'⟩
    · exact .inl (ticks.trans zero)
    · exact .inr ⟨ticks.trans ticks', level.trans level'⟩

theorem young_update {p : Nat} {proc proc' : Nat → Proc} (same : proc' = update proc p new)
    (young : Young (proc p) new) (q : Nat) : Young (proc q) (proc' q) := by
  rw [same]
  exact Update.rel young Young.refl q

section Ticks

theorem pop_young (ran : pop_MLFQ k p = .ok (t, found)) (q : Nat) :
    Young (k.proc q) (t.proc q) ∧ (found = true → (t.proc p).fqtick = 0) := by
  rcases (pop_cases ran).2 with ⟨no, same, _⟩ | ⟨i, _, _, _, proc, _⟩
  · rw [same]
    refine ⟨Young.refl _, fun yes => ?_⟩
    rw [no] at yes
    cases yes
  · refine ⟨young_update proc (.inl rfl) q, fun _ => ?_⟩
    rw [proc, update_self]

theorem push_young (k : Kernel) (p level q : Nat) : Young (k.proc q)
    ((push_MLFQ k p level).1.proc q) := by
  rcases push_cases k p level with ⟨same, _⟩ | ⟨i, t, _, _, same, proc, _⟩
  · rw [same]
    exact Young.refl _
  · rw [same]
    exact young_update proc (.inl rfl) q

theorem level_change_young (ran : level_change_MLFQ k p level = .ok (t, found)) (q : Nat) :
    Young (k.proc q) (t.proc q) := by
  obtain ⟨⟨u, popped⟩, pop, ran⟩ := bind_eq_ok.mp ran
  have first := (pop_young pop q).1
  cases popped with
  | false =>
    cases ran
    exact first
  | true =>
    have same : (push_MLFQ u p level).1 = t := congrArg Prod.fst (Except.ok.inj ran)
    rw [← same]
    exact first.trans (push_young u p level q)

/-- A process that belongs into a queue is found there, and starts again. -/
theorem level_change_zero (fair : Fair k) (member : Member k.proc p)
    (ran : level_change_MLFQ k p level = .ok (t, found)) : (t.proc p).fqtick = 0 := by
  obtain ⟨⟨u, popped⟩, pop, ran⟩ := bind_eq_ok.mp ran
  cases popped with
  | false =>
    exfalso
    obtain ⟨_, i, inside, there⟩ := fair.placed.present p member
    rcases (pop_cases pop).2 with ⟨_, _, missing⟩ | ⟨_, yes, _⟩
    · exact missing i inside there
    · cases yes
  | true =>
    have same : (push_MLFQ u p level).1 = t := congrArg Prod.fst (Except.ok.inj ran)
    have zero := (pop_young pop p).2 rfl
    rw [← same]
    rcases push_young u p level p with again | ⟨stays, _⟩
    · exact again
    · exact stays.trans zero

theorem boost_young (ran : boost_priority k = .ok t) (q : Nat) : Young (k.proc q) (t.proc q) := by
  obtain ⟨u, boosted, ran⟩ := bind_eq_ok.mp ran
  cases ran
  refine foldlM_ok (fun _ v => Young (k.proc q) (v.proc q)) ?_ (Young.refl _) boosted
  intro done p rest v w _ young round
  split at round
  · obtain ⟨⟨x, moved⟩, changed, round⟩ := bind_eq_ok.mp round
    cases round
    exact young.trans (level_change_young changed q)
  · cases round
    exact young

theorem quantum_young (ran : quantum k allot length = .ok (t, yields)) (q : Nat) :
    Young (k.proc q) (t.proc q) ∧ (yields = false → t = k ∧ allot % length ≠ 0) := by
  unfold quantum at ran
  split at ran
  · dsimp only at ran
    split at ran
    · obtain ⟨u, boosted, ran⟩ := bind_eq_ok.mp ran
      cases ran
      exact ⟨boost_young boosted q, fun no => (nomatch no)⟩
    · cases ran
      exact ⟨Young.refl _, fun no => (nomatch no)⟩
  · rename_i more
    cases ran
    exact ⟨Young.refl _, fun _ => ⟨rfl, more⟩⟩

/-- The end of a tick at a level that has a next one. -/
structure Aging (k t : Kernel) (p allot limit length : Nat) (yields : Bool) : Prop where
  young : ∀ q, Young (k.proc q) (t.proc q)
  spent : limit ≤ allot → (t.proc p).fqtick = 0
  more : yields = false → allot % length ≠ 0 ∧ (allot < limit → t = k)

theorem aging {next : Nat} (fair : Fair k) (member : Member k.proc p) (ran : (do
      let (k, _) ← if allot ≥ limit then level_change_MLFQ k p next else .ok (k, false)
      quantum k allot length) = .ok (t, yields)) : Aging k t p allot limit length yields := by
  split at ran
  · rename_i spent
    obtain ⟨⟨u, moved⟩, changed, ran⟩ := bind_eq_ok.mp ran
    have zero := level_change_zero fair member changed
    refine ⟨fun q => (level_change_young changed q).trans (quantum_young ran q).1, fun _ => ?_,
      fun no => ⟨((quantum_young ran p).2 no).2, fun below => by omega⟩⟩
    rcases (quantum_young ran p).1 with again | ⟨stays, _⟩
    · exact again
    · exact stays.trans zero
  · rename_i below
    refine ⟨fun q => (quantum_young ran q).1, fun spent => absurd spent below, fun no => ?_⟩
    obtain ⟨same, more⟩ := (quantum_young ran p).2 no
    exact ⟨more, fun _ => same⟩

/-- A process in the upper levels has not used up its time there. -/
def Aged (p : Proc) : Prop := (p.level = 0 → p.fqtick < 20) ∧ (p.level = 1 → p.fqtick < 40)

theorem Aged.young (aged : Aged old) (young : Young old new) : Aged new := by
  rcases young with zero | ⟨ticks, level⟩
  · exact ⟨fun _ => by omega, fun _ => by omega⟩
  · unfold Aged
    rw [ticks, level]
    exact aged

/-- The ticks after which a process has to yield. -/
def remaining (p : Proc) : Nat :=
  if p.isstride then 6 - min p.fqtick 5
  else if p.level = 0 then 5 - p.fqtick % 5
  else if p.level = 1 then 10 - p.fqtick % 10
  else if p.level = 2 then 20 - p.fqtick % 20
  else 1

theorem remaining_bounds (p : Proc) : 1 ≤ remaining p ∧ remaining p ≤ 20 := by
  unfold remaining
  split
  · omega
  · split
    · omega
    · split
      · omega
      · split <;> omega

/-- How a tick leaves the process that runs. -/
structure Ran (old new : Proc) (yields : Bool) : Prop where
  aged : Aged new
  rank : yields = false → rank new = rank old
  remaining : yields = false → remaining new + 1 ≤ remaining old

theorem ran_on (aged : Aged { old with fqtick := old.fqtick + 1 })
    (left : yields = false → remaining { old with fqtick := old.fqtick + 1 } + 1 ≤ remaining old) :
    Ran old { old with fqtick := old.fqtick + 1 } yields :=
  ⟨aged, fun _ => rfl, left⟩

/-- A tick at one of the upper levels; the limit is a multiple of the quantum. -/
theorem ran_upper {counted : Kernel} (own : counted.proc p = { old with fqtick := old.fqtick + 1 })
    (multiple : limit % length = 0) (aging : Aging counted t p (old.fqtick + 1) limit length yields)
    (below : old.fqtick < limit)
      (aged : old.fqtick + 1 < limit → Aged { old with fqtick := old.fqtick + 1 })
    (left : (old.fqtick + 1) % length ≠ 0 →
      remaining { old with fqtick := old.fqtick + 1 } + 1 ≤ remaining old) :
        Ran old (t.proc p) yields := by
  by_cases last : old.fqtick + 1 = limit
  · -- the last tick at this level ends a quantum
    have zero := aging.spent (by omega)
    have ends : yields = true := by
      cases yields with
      | true => rfl
      | false =>
        have more := (aging.more rfl).1
        rw [last] at more
        exact absurd multiple more
    rw [ends]
    exact ⟨⟨fun _ => by omega, fun _ => by omega⟩, fun no => (nomatch no), fun no => (nomatch no)⟩
  · have within := aged (by omega)
    rw [← own] at within
    refine ⟨within.young (aging.young p), fun no => ?_, fun no => ?_⟩
    · rw [(aging.more no).2 (by omega), own]
      rfl
    · rw [(aging.more no).2 (by omega), own]
      exact left (aging.more no).1

/-- The levels that there are for processes with and without a share. -/
def Ranked (p : Proc) : Prop :=
  p.isstride = false ∧ p.mystride = 0 ∧ p.level < 3 ∨ p.isstride = true ∧ p.level = 3

theorem increase_eq (ran : increasealltick k p = .ok t) :
    t = k.setProc p { k.proc p with fqtick := (k.proc p).fqtick + 1 } := by
  unfold increasealltick at ran
  split at ran
  · cases ran
  · cases ran
    rfl

theorem tick_ran (fair : Fair k) (aged : Aged (k.proc p)) (live : Live (k.proc p).state)
    (ranked : Ranked (k.proc p)) (ran : tick_add_MLFQ k p = .ok (t, yields)) :
    (∀ q, q ≠ p → Young (k.proc q) (t.proc q)) ∧ Ran (k.proc p) (t.proc p) yields := by
  unfold tick_add_MLFQ at ran
  dsimp only at ran
  split at ran
  · rename_i holder
    obtain ⟨u, increased, ran⟩ := bind_eq_ok.mp ran
    cases increase_eq increased
    cases ran
    have three : (k.proc p).level = 3 := by
      rcases ranked with ⟨no, _⟩ | ⟨_, three⟩
      · cases no.symm.trans holder
      · exact three
    refine ⟨fun q other => ?_, ?_⟩
    · rw [setProc_of_ne other]
      exact Young.refl _
    rw [setProc_self]
    refine ran_on ⟨fun zero => ?_, fun one => ?_⟩ fun no => ?_
    · change (k.proc p).level = 0 at zero
      omega
    · change (k.proc p).level = 1 at one
      omega
    · rw [decide_eq_false_iff_not] at no
      change ¬ (k.proc p).fqtick + 1 > 5 at no
      have isHolder : (k.proc p).isstride = true := holder
      simp only [remaining, isHolder, if_true]
      omega
  · rename_i queued
    obtain ⟨u, increased, ran⟩ := bind_eq_ok.mp ran
    have isQueued : (k.proc p).isstride = false := Bool.eq_false_iff.mpr queued
    have own : u.proc = update k.proc p { k.proc p with fqtick := (k.proc p).fqtick + 1 } := by
      cases increase_eq increased
      rfl
    have counted : Fair u := by
      apply Fair.increase _ increased
      exact ⟨fair.placed, fair.inside, fair.alone⟩
    have member : Member u.proc p := by
      unfold Member
      rw [own, update_self]
      exact ⟨live, isQueued⟩
    have others : ∀ {t : Kernel}, (∀ q, Young (u.proc q) (t.proc q)) →
        ∀ q, q ≠ p → Young (k.proc q) (t.proc q) := by
      intro t young q other
      have same := young q
      rwa [own, update_of_ne other] at same
    have here : u.proc p = { k.proc p with fqtick := (k.proc p).fqtick + 1 } := by
      rw [own, update_self]
    rw [here] at ran
    dsimp only at ran
    split at ran
    · rename_i zero
      have ending : Aging u t p ((k.proc p).fqtick + 1) 20 5 yields := aging counted member ran
      have below := aged.1 zero
      refine ⟨others ending.young, ran_upper here (by decide) ending below (fun more => ?_)
        fun more => ?_⟩
      · exact ⟨fun _ => more, fun one => by change (k.proc p).level = 1 at one; omega⟩
      · simp only [remaining, isQueued, Bool.false_eq_true, if_false, zero, if_true]
        omega
    · rename_i notZero
      split at ran
      · rename_i one
        have ending : Aging u t p ((k.proc p).fqtick + 1) 40 10 yields := aging counted member ran
        have below := aged.2 one
        refine ⟨others ending.young, ran_upper here (by decide) ending below (fun more => ?_)
          fun more => ?_⟩
        · exact ⟨fun zero => absurd zero notZero, fun _ => more⟩
        · simp only [remaining, isQueued, Bool.false_eq_true, if_false, one]
          simp only [Nat.one_ne_zero, if_false, if_true]
          omega
      · rename_i notOne
        have unbounded : Aged { k.proc p with fqtick := (k.proc p).fqtick + 1 } :=
          ⟨fun zero => absurd zero notZero, fun one => absurd one notOne⟩
        split at ran
        · rename_i two
          refine ⟨others fun q => (quantum_young ran q).1, ?_, fun no => ?_, fun no => ?_⟩
          · rw [← here] at unbounded
            exact unbounded.young (quantum_young ran p).1
          · rw [((quantum_young ran p).2 no).1, here]
            rfl
          · obtain ⟨same, more⟩ := (quantum_young ran p).2 no
            rw [same, here]
            simp only [remaining, isQueued, Bool.false_eq_true, if_false, two]
            simp only [OfNat.ofNat_ne_zero, if_false, if_true, OfNat.ofNat_ne_one]
            omega
        · rename_i notTwo
          exfalso
          rcases ranked with ⟨_, _, low⟩ | ⟨yes, _⟩
          · omega
          · rw [isQueued] at yes
            cases yes

end Ticks

section Calls

/-- What a call does to a process: nobody starts to run, a process that runs on keeps its rank and
its ticks, and ticks are at most counted from zero again. -/
structure Paced (old new : Proc) : Prop where
  runs : new.state = .running → old.state = .running ∧ rank new = rank old ∧ new.fqtick = old.fqtick
  young : Young old new

theorem Paced.refl (old : Proc) : Paced old old := ⟨fun runs => ⟨runs, rfl, rfl⟩, Young.refl old⟩

theorem Paced.trans {middle : Proc} (first : Paced old middle) (second : Paced middle new) :
    Paced old new := by
  refine ⟨fun runs => ?_, first.young.trans second.young⟩
  obtain ⟨runs, rank, ticks⟩ := second.runs runs
  obtain ⟨runs', rank', ticks'⟩ := first.runs runs
  exact ⟨runs', rank.trans rank', ticks.trans ticks'⟩

theorem paced_stopped (stopped : new.state ≠ .running) (young : Young old new) : Paced old new :=
  ⟨fun runs => absurd runs stopped, young⟩

theorem paced_set (paced : Paced (k.proc p) new) (q : Nat) : Paced (k.proc q)
    ((k.setProc p new).proc q) :=
  Update.rel paced Paced.refl q

theorem paced_woken {state : ProcState} (rank : rank new = rank old)
    (fqtick : new.fqtick = old.fqtick) (level : new.level = old.level) (isState : new.state = state)
    (woken : Woken old.state state) : Paced old new := by
  refine ⟨fun runs => ⟨?_, rank, fqtick⟩, .inr ⟨fqtick, level⟩⟩
  rw [isState] at runs
  rcases woken with same | ⟨_, awake⟩
  · exact same.symm.trans runs
  · cases awake.symm.trans runs

theorem Bystander.paced (given : Bystander p old new) : Paced old new := by
  obtain ⟨parent, state, rfl, _, woken⟩ := given
  exact paced_woken rfl rfl rfl rfl woken

theorem exit_paced (ran : exit k p = .ok t) (q : Nat) : Paced (k.proc q) (t.proc q) := by
  obtain ⟨v, fqtick, _, ticks, bystander, slot⟩ := exit_slot ran
  refine (Bystander.paced (bystander q)).trans ?_
  rw [slot q]
  by_cases head : q = k.masterOf p
  · simp only [head, true_or, if_true]
    exact paced_stopped nofun (ticks.imp id fun kept => ⟨kept, rfl⟩)
  · simp only [head, false_or, if_false]
    split
    · exact paced_stopped nofun (.inr ⟨rfl, rfl⟩)
    · exact Paced.refl _

/-- `exit` of a process without threads and without a share. -/
theorem exit_strides (alone : Alone (k.proc p)) (ran : exit k p = .ok t)
    (queued : (k.proc p).isstride = false) : t.strides = k.strides := by
  obtain ⟨v, w, isV, unscheduled, result⟩ := exit_eq ran
  rw [masterOf_self alone.master] at isV unscheduled result
  have kept : (v.proc p).isstride = (k.proc p).isstride ∧ v.strides = k.strides := by
    rw [isV]
    obtain ⟨_, _, same, _⟩ := orphan_bystander k ((k.proc p).parent.map Chan.proc) p p
    exact ⟨by rw [same], (orphan_only k _ p).scheduler.2⟩
  rcases Sched.unschedule_eq unscheduled with ⟨holder, _⟩ | ⟨_, reset⟩
  · rw [endWorkers_slot] at holder
    cases queued.symm.trans (kept.1.symm.trans holder)
  · rw [result, setProc_strides, reset.1, (endWorkers_only v p).scheduler.2, kept.2]

theorem wait_paced {progress : Progress} (ran : wait k p = .ok (t, progress)) (q : Nat) :
    Paced (k.proc q) (t.proc q) := by
  refine (wait_touched ran).1.entry (R := fun _ => Paced) (fun _ => Paced.refl)
    (fun _ _ _ _ => Paced.trans) (fun q old new store => ?_) q
  cases store with
  | sleeps => exact paced_stopped nofun (.inr ⟨rfl, rfl⟩)
  | reclaims => exact paced_stopped nofun (.inr ⟨rfl, rfl⟩)
  | strikes => exact ⟨fun runs => ⟨runs, rfl, rfl⟩, .inr ⟨rfl, rfl⟩⟩
  | frees => exact paced_stopped nofun (.inr ⟨rfl, rfl⟩)

theorem kill_paced (k : Kernel) (pid q : Nat) : Paced (k.proc q) ((kill k pid).1.proc q) := by
  obtain ⟨killed, state, same, _, woken⟩ := kill_slot k pid q
  rw [same]
  exact paced_woken rfl rfl rfl rfl woken

theorem paced_slot {c : Kernel} (proc : t.proc = update c.proc np new)
    (stopped : new.state ≠ .running) (young : Young (c.proc np) new) (q : Nat) : Paced (c.proc q)
    (t.proc q) := by
  rw [proc]
  exact paced_set (paced_stopped stopped young) q

theorem allocprocRest_paced (stopped : (k.proc np).state ≠ .running)
    (ran : allocprocRest k np = (t, true)) (q : Nat) : Paced (k.proc q) (t.proc q) ∧
    (t.proc np).state = (k.proc np).state := by
  obtain ⟨u, frame, stacked, _, _, proc⟩ := allocprocRest_true ran
  rcases push_cases u np 0 with ⟨same, _⟩ | ⟨i, v, _, _, same, pushed, _⟩
  · rw [same] at proc
    dsimp only at proc
    rw [stacked, update_self, update_idem] at proc
    exact ⟨paced_slot proc stopped (.inr ⟨rfl, rfl⟩) q, by rw [proc, update_self]⟩
  · rw [same] at proc
    dsimp only at proc
    rw [pushed, stacked, update_self, update_self, update_idem, update_idem] at proc
    exact ⟨paced_slot proc stopped (.inl rfl) q, by rw [proc, update_self]; rfl⟩

theorem fork_paced {made : Option Nat} (ran : fork k p = .ok (t, made)) (q : Nat) :
    Paced (k.proc q) (t.proc q) := by
  rcases fork_eq ran with ⟨_, same⟩ | ⟨np, found, rest⟩
  · rw [same]
    exact Paced.refl _
  have claimed : Paced (k.proc q) ((k.claim np).proc q) :=
    paced_slot (claim_proc k np) (fun runs => (nomatch runs)) (.inr ⟨rfl, rfl⟩) q
  have dead : ((k.claim np).proc np).state ≠ .running := by
    rw [claim_proc, update_self]
    exact fun runs => (nomatch runs)
  refine claimed.trans ?_
  rcases rest with ⟨_, failed⟩ | ⟨u, taken, rest⟩
  · rw [(allocStack_false (allocprocRest_false failed)).1]
    refine paced_set ?_ q
    exact paced_stopped (fun runs => (nomatch runs)) (.inr ⟨rfl, rfl⟩)
  refine (allocprocRest_paced dead taken q).1.trans ?_
  obtain ⟨_, _, m, _, _, ⟨_, _, page, _, same⟩ | ⟨d, new, _, _, same⟩⟩ := forkRest_eq rest
  · rw [same]
    refine paced_set (k := u.setMem (Vm.kfree m page)) ?_ q
    exact paced_stopped (fun runs => (nomatch runs)) (.inr ⟨rfl, rfl⟩)
  · rw [same]
    refine paced_set (k := (u.setMem m).setDir d (some new)) ?_ q
    exact paced_stopped (fun runs => (nomatch runs)) (.inr ⟨rfl, rfl⟩)

/-- `set_cpu_share` of a process without threads changes no other process. -/
theorem share_other {portion : Int} {done : Bool} (alone : Alone (k.proc p))
    (ran : set_cpu_share k p portion = .ok (t, done)) (other : q ≠ p) : t.proc q = k.proc q := by
  rw [Sched.set_cpu_share_split] at ran
  split at ran
  · cases ran
    rfl
  obtain ⟨stride₀, _, ran⟩ := bind_eq_ok.mp ran
  unfold Sched.enter at ran
  split at ran
  · cases ran
  obtain ⟨stride, _, ran⟩ := bind_eq_ok.mp ran
  obtain ⟨u, cleared, ran⟩ := bind_eq_ok.mp ran
  obtain ⟨⟨v, found⟩, popped, ran⟩ := bind_eq_ok.mp ran
  cases ran
  obtain ⟨proc, _⟩ := Queue.setthreadtick_alone (by
    rw [setProc_self]
    exact ⟨alone.master, alone.isthread, alone.workers⟩) cleared
  have before : u.proc q = k.proc q := by
    rw [proc, update_of_ne other, setProc_of_ne other]
    rfl
  rw [setProc_of_ne other, ← before]
  rcases (pop_cases popped).2 with ⟨_, same, _⟩ | ⟨i, _, _, _, proc, _⟩
  · rw [same]
  · rw [proc, update_of_ne other]

end Calls

section Runs

/-- The processes that run are on the CPU. -/
def machine (k : Kernel) : Calls.Machine :=
  ⟨k, fun q => decide ((k.proc q).state = .running), fun _ => none⟩

/-- The event as the scheduler's data sees it; a change of memory is no change for them. -/
def label : Event → Sched.Event
  | .fork p => .call (.fork p)
  | .setCpuShare p portion => .setCpuShare p portion
  | .tick p => .tick p
  | .exit p => .call (.exit p)
  | .wait p => .call (.wait p)
  | .kill pid => .call (.kill pid)
  | .dispatch p => .schedule p
  | .yield p => .call (.yield p)
  | .sleep p chan => .call (.sleep p chan)
  | .wakeup chan => .call (.wakeup chan)
  | .memory _ _ _ _ => .call (.wakeup none)

/-- What a step does: a call, a request for a share, a tick or a dispatch. -/
inductive Act (k t : Kernel) : Event → Prop where
  | call (event : Event) (call : Calls.Event) (isCall : label event = .call call)
      (effects : Effects k t (forks call)) (paced : ∀ q, Paced (k.proc q) (t.proc q))
      (strides : (∀ p, event = .exit p → (k.proc p).isstride = false) → t.strides = k.strides)
      (step : Queue.step k event = some t) : Act k t event
  | share (p : Nat) (portion : Int) (done : Bool) (running : (k.proc p).state = .running)
      (ran : set_cpu_share k p portion = .ok (t, done)) : Act k t (.setCpuShare p portion)
  | tick (p : Nat) (u : Kernel) (yields : Bool) (running : (k.proc p).state = .running)
      (ran : tick_add_MLFQ k p = .ok (u, yields))
      (after : t = if yields then u.setProc p { u.proc p with state := .runnable } else u) :
      Act k t (.tick p)
  | dispatch (p w : Nat) (u : Kernel) (idle : Idle k) (inside : p < NPROC)
      (runnable : (k.proc p).state = .runnable) (result : choose k p = .ok (u, w))
      (after : t = u.setProc w { u.proc w with state := .running }) : Act k t (.dispatch p)

theorem quiet_switch {new : Proc} (same : seat new = seat (k.proc p)) (live : Live new.state)
    (lists : new.workerthread = (k.proc p).workerthread) : Seats.Quiet k (k.setProc p new) :=
  quiet_set same (fun _ _ => live) fun _ _ listed => by rwa [lists] at listed

theorem step_act (fair : Fair k) (linked : Linked k) (taken : step k event = some t) :
    Act k t event := by
  cases event with
  | fork p =>
    have step : Queue.step k (.fork p) = some t := taken
    obtain ⟨_, taken⟩ := ite_none_right_eq_some.mp taken
    obtain ⟨made, ran⟩ := toOption_map_fst_eq_some.mp taken
    exact .call _ (.fork p) rfl (fork_effects ran) (fork_paced ran)
      (fun _ => fork_strides ran) step
  | setCpuShare p portion =>
    obtain ⟨running, taken⟩ := ite_none_right_eq_some.mp taken
    obtain ⟨done, ran⟩ := toOption_map_fst_eq_some.mp taken
    exact .share p portion done running ran
  | tick p =>
    obtain ⟨running, taken⟩ := ite_none_right_eq_some.mp taken
    obtain ⟨⟨u, yields⟩, ran, same⟩ := map_eq_some_iff.mp taken
    exact .tick p u yields running (toOption_eq_some.mp ran) same.symm
  | exit p =>
    have step : Queue.step k (.exit p) = some t := taken
    obtain ⟨_, taken⟩ := ite_none_right_eq_some.mp taken
    have ran := toOption_eq_some.mp taken
    exact .call _ (.exit p) rfl (exit_effects linked ran) (exit_paced ran)
      (fun queued => exit_strides (fair.alone p) ran (queued p rfl)) step
  | wait p =>
    have step : Queue.step k (.wait p) = some t := taken
    obtain ⟨_, taken⟩ := ite_none_right_eq_some.mp taken
    obtain ⟨progress, ran⟩ := toOption_map_fst_eq_some.mp taken
    have quiet := wait_quiet linked ran
    exact .call _ (.wait p) rfl (.quiet _ quiet) (wait_paced ran)
      (fun _ => quiet.strides) step
  | kill pid =>
    have step : Queue.step k (.kill pid) = some t := taken
    cases taken
    have quiet := kill_quiet k pid
    exact .call _ (.kill pid) rfl (.quiet _ quiet) (kill_paced k pid) (fun _ => quiet.strides) step
  | dispatch p =>
    obtain ⟨⟨idle, inside, runnable⟩, taken⟩ := ite_none_right_eq_some.mp taken
    obtain ⟨w, ran⟩ := toOption_map_fst_eq_some.mp taken
    obtain ⟨⟨u, v⟩, result, same⟩ := bind_eq_ok.mp ran
    cases same
    exact .dispatch p _ u idle inside runnable result rfl
  | yield p =>
    have step : Queue.step k (.yield p) = some t := taken
    obtain ⟨_, taken⟩ := ite_none_right_eq_some.mp taken
    cases taken
    refine .call _ (.yield p) rfl (.quiet _ (quiet_switch rfl (.inl rfl) rfl)) (paced_set ?_)
      (fun _ => rfl) step
    exact paced_stopped (fun runs => (nomatch runs)) (.inr ⟨rfl, rfl⟩)
  | sleep p chan =>
    have step : Queue.step k (.sleep p chan) = some t := taken
    obtain ⟨_, taken⟩ := ite_none_right_eq_some.mp taken
    cases taken
    refine .call _ (.sleep p chan) rfl (.quiet _ (quiet_switch rfl (.inr (.inr rfl)) rfl))
      (paced_set ?_) (fun _ => rfl) step
    exact paced_stopped (fun runs => (nomatch runs)) (.inr ⟨rfl, rfl⟩)
  | wakeup chan =>
    have step : Queue.step k (.wakeup chan) = some t := taken
    cases taken
    exact .call _ (.wakeup chan) rfl (.quiet _ (wakeup1_quiet k chan))
      (fun q => Bystander.paced (wakeup1_bystander 0 k chan q)) (fun _ => rfl) step
  | memory m pgdirs sz pgdir =>
    have step : Queue.step k (.memory m pgdirs sz pgdir) = some t := taken
    cases taken
    refine .call _ (.wakeup none) rfl (.quiet _ ?_) (fun q => ?_) (fun _ => rfl) step
    · exact ⟨rfl, rfl, fun _ => rfl, fun _ _ live => live, fun _ _ _ listed => listed⟩
    · exact ⟨fun runs => ⟨runs, rfl, rfl⟩, .inr ⟨rfl, rfl⟩⟩

theorem act_turn (act : Act k t event) : Turn (machine k) t (label event) := by
  cases act with
  | call event call isCall effects paced strides step =>
    rw [isCall]
    exact .call call effects
  | share p portion done running ran =>
    rcases Sched.set_cpu_share_eq ran with ⟨_, same, high⟩ | ⟨_, j, granted⟩
    · exact .rejected p portion high same
    · exact .granted p portion j (decide_eq_true running) granted
  | tick p u yields running ran after =>
    obtain ⟨alone, shifts⟩ := Sched.tick_returned ran
    refine .tick p u running alone shifts ?_
    rw [after]
    split
    · exact quiet_switch rfl (.inl rfl) rfl
    · exact Seats.Quiet.refl u
  | dispatch p w u idle inside runnable result after =>
      exact .schedule p w u inside runnable result after

/-- Forks have memory or fail at once, and shares are percentages. -/
def Proper (k : Kernel) : Event → Prop
  | .fork p => Queue.Supplied k p
  | .setCpuShare _ portion => 1 ≤ portion ∧ portion ≤ 100
  | _ => True

instance (k : Kernel) (event : Event) : Decidable (Proper k event) := by
  rcases event <;> dsimp only [Proper] <;> infer_instance

theorem Proper.careful (proper : Proper k event) : Careful k event := by
  cases event with
  | fork p => exact proper
  | setCpuShare | tick | exit | wait | kill | dispatch | yield | sleep | wakeup | memory => trivial

theorem Proper.percent (proper : Proper k event) : Sched.Percent (label event) := by
  cases event with
  | setCpuShare p portion => exact proper
  | fork | tick | exit | wait | kill | dispatch | yield | sleep | wakeup | memory => trivial

/-- The passes are `int`s. -/
def InRange (k : Kernel) : Prop := ∀ i, -(2 ^ 31) ≤ (k.strides i).pass ∧
    (k.strides i).pass ≤ 2 ^ 31 - 1

theorem int_bounds (n : Int) : -(2 ^ 31) ≤ int n ∧ int n ≤ 2 ^ 31 - 1 := by
  have lower : -(2 ^ 31) ≤ int n := Int.le_bmod (by decide)
  have upper : int n < 2 ^ 31 := Int.bmod_lt (by decide)
  omega

/-- What holds in every state of every run. -/
structure Valid (k : Kernel) : Prop where
  fair : Fair k
  ready : Ready k
  linked : Linked k
  ledger : Ledger k
  owned : Owned k
  ranked : ∀ p, Ranked (k.proc p)
  aged : ∀ p, Aged (k.proc p)
  single : ∀ p q, (k.proc p).state = .running → (k.proc q).state = .running → p = q
  range : InRange k

theorem ranked_turn {m : Calls.Machine} {event : Sched.Event} (ready : Ready m.k)
    (ranked : ∀ p, Ranked (m.k.proc p)) (turn : Turn m t event) (p : Nat) : Ranked (t.proc p) := by
  unfold Ranked
  cases turn_rank ready turn p with
  | copied q same =>
    simp only [rank, Prod.mk.injEq] at same
    rw [same.1, same.2.1, same.2.2]
    exact ranked q
  | queued level low same =>
    simp only [rank, Prod.mk.injEq] at same
    exact .inl ⟨same.1, same.2.1, by omega⟩
  | full call isCall isFork noRoom same =>
    simp only [rank, Prod.mk.injEq] at same
    rw [same.1, same.2.1, same.2.2]
    exact (ranked p).imp (fun queued => ⟨queued.1, rfl, queued.2.2⟩) id
  | granted portion j isCall granted =>
    obtain ⟨_, own⟩ := granted.own
    rw [own]
    exact .inr ⟨rfl, rfl⟩

theorem range_turn {m : Calls.Machine} {event : Sched.Event} (ready : Ready m.k)
    (range : InRange m.k) (turn : Turn m t event) : InRange t := by
  intro i
  cases turn_pass ready turn i with
  | same pass =>
    rw [pass]
    exact range i
  | cleared pass =>
    rw [pass]
    decide
  | entered p portion stride₀ isCall pass =>
    rw [pass]
    refine Sched.minPass_bounds (by decide) fun l => ?_
    rw [Sched.left_pass]
    exact range l
  | ticked p isTick payer pass =>
    rw [pass]
    exact int_bounds _
  | charged p isChoice first pass =>
    rw [pass]
    exact int_bounds _

/-- The steps keep what the scheduler's data satisfy; the rest is about processes. -/
theorem Valid.turn (valid : Valid k) (percent : Sched.Percent (label event))
    (turn : Turn (machine k) t (label event)) (sharing : Sched.Sharing (machine k) (label event))
    (fair : Fair t) (aged : ∀ p, Aged (t.proc p))
    (single : ∀ p q, (t.proc p).state = .running → (t.proc q).state = .running → p = q) :
    Valid t where
  fair := fair
  ready := Sched.ready_turn valid.ready turn
  linked := Sched.linked_turn valid.ready valid.linked turn
  ledger := Sched.ledger_turn valid.ready valid.ledger percent turn
  owned := Sched.owned_turn valid.ready valid.owned sharing turn
  ranked := ranked_turn valid.ready valid.ranked turn
  aged := aged
  single := single
  range := range_turn valid.ready valid.range turn

/-- Looking at the queues leaves them as they are. -/
theorem fair_looked (fair : Fair k) (looked : Looked k t) : Fair t := by
  obtain ⟨_, _, rfl, _⟩ := looked
  refine ⟨fair.placed, fair.inside, fun q => ?_⟩
  exact ⟨(fair.alone q).master, (fair.alone q).isthread, (fair.alone q).workers⟩

/-- What a dispatch leaves of the processes. -/
structure Chosen (k t : Kernel) (w : Nat) : Prop where
  runnable : (k.proc w).state = .runnable
  state : ∀ q, (t.proc q).state = if q = w then .running else (k.proc q).state
  rank : ∀ q, rank (t.proc q) = rank (k.proc q)
  ticks : ∀ q, (t.proc q).fqtick = (k.proc q).fqtick

theorem chosen {w : Nat} (ready : Ready k) (runnable : (k.proc p).state = .runnable)
    (result : choose k p = .ok (u, w))
    (after : t = u.setProc w { u.proc w with state := .running }) : Chosen k t w := by
  obtain ⟨good, looked⟩ := choose_eq ready runnable result
  have same : ∀ q, (u.proc q).state = (k.proc q).state ∧
    Sched.rank (u.proc q) = Sched.rank (k.proc q) ∧
      (u.proc q).fqtick = (k.proc q).fqtick := by
    intro q
    rcases looked with ⟨_, _, rfl, _⟩ | ⟨_, _, rfl, _⟩
    · exact ⟨rfl, rfl, rfl⟩
    · exact ⟨rfl, rfl, rfl⟩
  rw [after]
  refine ⟨good, fun q => ?_, fun q => ?_, fun q => ?_⟩
  · rw [setProc_proc]
    split
    · rename_i equal
      rw [equal, update_self]
    · rename_i other
      rw [update_of_ne other]
      exact (same q).1
  · exact (setProc_same Sched.rank (by rfl) q).trans (same q).2.1
  · exact (setProc_same (·.fqtick) (by rfl) q).trans (same q).2.2

theorem Aged.same (aged : Aged old) (rank : Sched.rank new = Sched.rank old)
    (ticks : new.fqtick = old.fqtick) : Aged new :=
  aged.young (.inr ⟨ticks, congrArg (·.2.2) rank⟩)

theorem valid_step (valid : Valid k) (proper : Proper k event) (taken : step k event = some t) :
    Valid t := by
  have act := step_act valid.fair valid.linked taken
  have turn := act_turn act
  cases act with
  | call event call isCall effects paced strides taken =>
    refine valid.turn proper.percent turn ?_ (Queue.fair_step event valid.fair proper.careful taken)
      ?_ ?_
    · rw [isCall]
      trivial
    · exact fun p => (valid.aged p).young (paced p).young
    · exact fun p q first second =>
        valid.single p q ((paced p).runs first).1 ((paced q).runs second).1
  | share p portion done running ran =>
    rcases Sched.set_cpu_share_eq ran with ⟨_, same, _⟩ | ⟨_, j, granted⟩
    · rw [same]
      exact valid
    have alone := valid.fair.alone p
    have shared := valid.ledger.shared proper.1 proper.2 granted
    have queued : (k.proc p).isstride = false := by
      rcases valid.ranked p with ⟨no, _⟩ | ⟨_, three⟩
      · exact no
      · have low := granted.level
        omega
    obtain ⟨fqtick, own⟩ := granted.own
    have others : ∀ q, q ≠ p → t.proc q = k.proc q := fun q other => share_other alone ran other
    have states : ∀ q, (t.proc q).state = (k.proc q).state := by
      intro q
      by_cases equal : q = p
      · rw [equal, own]
      · rw [others q equal]
    refine valid.turn proper.percent turn ⟨running, alone.master, alone.isthread, queued, ?_⟩
      (Queue.fair_setCpuShare valid.fair ran) ?_ ?_
    · exact fun _ => ⟨j, shared.inside, shared.other, shared.idle⟩
    · intro q
      by_cases equal : q = p
      · rw [equal, own]
        exact ⟨fun zero => (nomatch zero), fun one => (nomatch one)⟩
      · rw [others q equal]
        exact valid.aged q
    · intro q r first second
      rw [states] at first second
      exact valid.single q r first second
  | tick p u yields running ran after =>
    obtain ⟨young, paced⟩ :=
      tick_ran valid.fair (valid.aged p) (.inr (.inl running)) (valid.ranked p) ran
    have shifts := (Sched.tick_returned ran).2
    have fair := valid.fair.tick ran
    have aged : ∀ q, Aged (u.proc q) := by
      intro q
      by_cases equal : q = p
      · rw [equal]
        exact paced.aged
      · exact (valid.aged q).young (young q equal)
    have states : ∀ q, (u.proc q).state = (k.proc q).state := fun q => (shifts.seat q).2.2.2.1
    cases yields with
    | false =>
      cases after
      refine valid.turn proper.percent turn trivial fair aged fun q r first second => ?_
      exact valid.single q r ((states q).symm.trans first) ((states r).symm.trans second)
    | true =>
      cases after
      have alone := fair.alone p
      refine valid.turn proper.percent turn trivial ?_ ?_ ?_
      · refine Queue.fair_switch fair ?_ (.inl rfl) rfl rfl ⟨alone.master, alone.isthread,
          alone.workers⟩
        rw [states, running]
        exact .inr (.inl rfl)
      · exact fun q =>
          (aged q).same (setProc_same rank (by rfl) q) (setProc_same (·.fqtick) (by rfl) q)
      have stopped :
        ∀ q, ((u.setProc p { u.proc p with state := .runnable }).proc q).state = .running →
          (k.proc q).state = .running := by
        intro q runs
        rw [setProc_proc] at runs
        by_cases equal : q = p
        · rw [equal, update_self] at runs
          cases runs
        · rw [update_of_ne equal, states] at runs
          exact runs
      exact fun q r first second => valid.single q r (stopped q first) (stopped r second)
  | dispatch p w u idle inside runnable result after =>
    have choice := chosen valid.ready runnable result after
    have looked : Fair u := by
      rcases (choose_eq valid.ready runnable result).2 with looked | looked
      · exact fair_looked valid.fair looked
      · exact fair_looked (k := charge k)
          ⟨valid.fair.placed, valid.fair.inside, valid.fair.alone⟩ looked
    have good : (u.proc w).state = .runnable := by
      rcases (choose_eq valid.ready runnable result).2 with looked | looked
      · exact (looked.state w).trans choice.runnable
      · exact (looked.state w).trans choice.runnable
    have alone := looked.alone w
    refine valid.turn proper.percent turn trivial ?_ ?_ ?_
    · rw [after]
      refine Queue.fair_switch looked (.inl good) (.inr (.inl rfl)) rfl rfl ?_
      exact ⟨alone.master, alone.isthread, alone.workers⟩
    · exact fun q => (valid.aged q).same (choice.rank q) (choice.ticks q)
    have only : ∀ q, (t.proc q).state = .running → q = w := by
      intro q runs
      rw [choice.state] at runs
      split at runs
      · assumption
      · have used : (k.proc q).state ≠ .unused := by
          rw [runs]
          exact fun no => (nomatch no)
        exact absurd runs (idle q (valid.fair.inside q used))
    exact fun q r first second => (only q first).trans (only r second).symm

theorem boot_paced {mem : Vm.Mem} {code : Nat → UInt8}
    (booted : userinit (Kernel.boot mem) code = .ok k) (q : Nat) : Paced ((Kernel.boot mem).proc q)
    (k.proc q) := by
  obtain ⟨v, u, p, _, d, _, _, _, boot, _, allocated, _, _, _, _, _, _, proc⟩ := userinit_eq booted
  have dead : ((v.claim p).proc p).state ≠ .running := by
    rw [claim_proc, update_self]
    exact fun runs => (nomatch runs)
  have claimed : Paced (v.proc q) ((v.claim p).proc q) :=
    paced_slot (claim_proc v p) (fun runs => (nomatch runs)) (.inr ⟨rfl, rfl⟩) q
  rw [← boot]
  refine (claimed.trans (allocprocRest_paced dead (allocproc_some allocated).2 q).1).trans ?_
  exact paced_slot proc (fun runs => (nomatch runs)) (.inr ⟨rfl, rfl⟩) q

theorem valid_boot {mem : Vm.Mem} {code : Nat → UInt8}
    (booted : userinit (Kernel.boot mem) code = .ok k) :
    Valid k := by
  have fresh := fresh_userinit booted
  obtain ⟨ready, linked⟩ := Sched.run_ready booted (Run.exec_nil Sched.step _)
  obtain ⟨p, first⟩ := fresh.first
  have stopped : ∀ q, (k.proc q).state ≠ .running :=
    fun q runs => (nomatch ((boot_paced booted q).runs runs).1)
  refine ⟨Queue.fair_boot booted, ready, linked, (Sched.orderly_boot fresh).ledger, ?_,
      ?_, ?_, ?_, ?_⟩
  · intro j other active
    rw [fresh.others j other] at active
    exact absurd rfl active
  · intro q
    have seat := fresh.seat q
    simp only [Seats.seat, Prod.mk.injEq] at seat
    exact .inl ⟨seat.2.1, seat.2.2.1, by omega⟩
  · intro q
    refine Aged.young ?_ (boot_paced booted q).young
    exact ⟨fun _ => (by decide : 0 < 20), fun _ => (by decide : 0 < 40)⟩
  · exact fun q _ runs => absurd runs (stopped q)
  · intro i
    have zero : (k.strides i).pass = 0 := by
      by_cases isFirst : i = 0
      · rw [isFirst, first]
      · rw [fresh.others i isFirst]
    rw [zero]
    decide

end Runs

end Xv6.Process.Single
