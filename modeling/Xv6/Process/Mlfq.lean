import Xv6.Process.Queue
import Xv6.Process.Sched

/- The representation of the MLFQ: each queue counts its processes, no process is held twice, and a
process in a queue has its level. -/
namespace Xv6.Process.Mlfq

open Function Bins Outcome Queue Sched

variable {k t u : Kernel} {p q level : Nat} {found yields : Bool}

/-- The process is in a queue. -/
def Held (k : Kernel) (p : Nat) : Prop :=
  ∃ level < 3, ∃ i < NPROC, (k.queues level).holdingproc i = some p

/-- The queues are as their fields say; a `struct proc *` points into the process table. -/
structure Represented (k : Kernel) : Prop where
  total : ∀ level < 3, (k.queues level).total = (filled NPROC (k.queues level).holdingproc : Int)
  once : ∀ l m i j p, l < 3 → m < 3 → i < NPROC → j < NPROC →
    (k.queues l).holdingproc i = some p → (k.queues m).holdingproc j = some p → l = m ∧ i = j
  level : ∀ l i p, l < 3 → i < NPROC → (k.queues l).holdingproc i = some p → p < NPROC ∧
    (k.proc p).level = l

theorem Represented.placed (good : Represented k) : Placed 3 NPROC (Held k) (levels k.proc)
    (holders k) := by
  constructor
  · intro l i p low inside here
    exact ⟨⟨l, low, i, inside, here⟩, (good.level l i p low inside here).2⟩
  · intro p ⟨l, low, i, inside, here⟩
    have same : levels k.proc p = l := (good.level l i p low inside here).2
    rw [same]
    exact ⟨low, i, inside, here⟩
  · intro l i j p low insideI insideJ first second
    exact (good.once l l i j p low low insideI insideJ first second).2

theorem Represented.inside (good : Represented k) (held : Held k p) : p < NPROC ∧
    (k.proc p).level < 3 := by
  obtain ⟨l, low, i, inside, here⟩ := held
  obtain ⟨small, same⟩ := good.level l i p low inside here
  exact ⟨small, by omega⟩

/-- The queues are consistent if their processes are placed and they count right. -/
theorem represented_of_placed {live : Nat → Prop}
    (placed : Placed 3 NPROC live (levels k.proc) (holders k)) (bounded : ∀ p, live p → p < NPROC)
    (total : ∀ level < 3,
      (k.queues level).total = (filled NPROC (k.queues level).holdingproc : Int)) :
    Represented k ∧ ∀ p, Held k p ↔ live p := by
  refine ⟨⟨total, ?_, ?_⟩, fun p => ⟨?_, fun lives => ?_⟩⟩
  · intro l m i j p lowL lowM insideI insideJ first second
    have levelL := (placed.held l i p lowL insideI first).2
    have levelM := (placed.held m j p lowM insideJ second).2
    have same : l = m := levelL.symm.trans levelM
    subst same
    exact ⟨rfl, placed.unique l i j p lowL insideI insideJ first second⟩
  · intro l i p low inside here
    obtain ⟨lives, same⟩ := placed.held l i p low inside here
    exact ⟨bounded p lives, same⟩
  · rintro ⟨l, low, i, inside, here⟩
    exact (placed.held l i p low inside here).1
  · obtain ⟨low, i, inside, here⟩ := placed.present p lives
    exact ⟨_, low, i, inside, here⟩

/-- The queues read the levels of the processes that they hold. -/
theorem Represented.congr (good : Represented k) (queues : t.queues = k.queues)
    (level : ∀ p, Held k p → (t.proc p).level = (k.proc p).level) : Represented t := by
  constructor
  · rw [queues]
    exact good.total
  · rw [queues]
    exact good.once
  · intro l i p low inside here
    rw [queues] at here
    obtain ⟨small, same⟩ := good.level l i p low inside here
    exact ⟨small, (level p ⟨l, low, i, inside, here⟩).trans same⟩

theorem held_congr (queues : t.queues = k.queues) : Held t p ↔ Held k p := by
  unfold Held
  rw [queues]

theorem represented_boot (m : Vm.Mem) : Represented (Kernel.boot m) := by
  constructor
  · intro level _
    rw [filled, Finset.filter_false_of_mem (fun i _ empty => empty rfl)]
    rfl
  · intro l m i j p _ _ _ _ here
    cases here
  · intro l i p _ _ here
    cases here

section Operations

/-- `push_MLFQ` of a process that no queue holds finds a place. -/
theorem push_spec (good : Represented k) (absent : ¬ Held k p) (inside : p < NPROC)
    (low : level < 3) :
    ∃ t, push_MLFQ k p level = (t, true) ∧ Represented t ∧ (∀ q, Held t q ↔ Held k q ∨ q = p) ∧
      t.proc = update k.proc p (queued (k.proc p) level) ∧ t.strides = k.strides ∧
      t.tick = k.tick := by
  obtain ⟨t, pushed, placed, proc⟩ := push_placed level good.placed
    (fun q held => (good.inside held).1)
    absent inside low
  have rest : t.strides = k.strides ∧ t.tick = k.tick := by
    have same : (push_MLFQ k p level).1 = t := congrArg Prod.fst pushed
    rw [← same]
    unfold push_MLFQ
    split
    · exact ⟨rfl, rfl⟩
    · exact ⟨rfl, rfl⟩
  have total : ∀ l < 3, (t.queues l).total = (filled NPROC (t.queues l).holdingproc : Int) := by
    intro l small
    rcases push_cases k p level with ⟨full, _⟩ | ⟨i, u, slot, free, same, _, queues⟩
    · cases full.symm.trans pushed
    cases same.symm.trans pushed
    rw [queues]
    by_cases here : l = level
    · rw [here, update_self]
      dsimp only
      rw [filled_put slot free, good.total level low]
      omega
    · rw [update_of_ne here]
      exact good.total l small
  obtain ⟨consistent, held⟩ := represented_of_placed placed (by
    rintro q (lives | rfl)
    · exact (good.inside lives).1
    · exact inside) total
  exact ⟨t, pushed, consistent, held, proc, rest⟩

/-- A machine with one process in a queue. -/
theorem push_boot (low : level < 3) : ∃ k, push_MLFQ (Kernel.boot smallMem) 3 level = (k, true) ∧
    Represented k ∧ Held k 3 ∧ k.proc 3 = queued ((Kernel.boot smallMem).proc 3) level ∧
    k.strides = (Kernel.boot smallMem).strides := by
  have absent : ¬ Held (Kernel.boot smallMem) 3 := by
    rintro ⟨_, _, _, _, here⟩
    cases here
  obtain ⟨k, pushed, good, held, proc, strides, _⟩ :=
    push_spec (represented_boot smallMem) absent (by decide : 3 < NPROC) low
  exact ⟨k, pushed, good, (held 3).mpr (.inr rfl), by rw [proc, update_self], strides⟩

/-- `pop_MLFQ` of a process at one of the levels takes it out of its queue if it is there. -/
theorem pop_spec (good : Represented k) (low : (k.proc p).level < 3) :
    ∃ t found, pop_MLFQ k p = .ok (t, found) ∧ Represented t ∧ (∀ q, Held t q ↔ Held k q ∧ q ≠ p) ∧
      (found = true ↔ Held k p) ∧ t.strides = k.strides ∧ t.tick = k.tick ∧
      t.proc = if found then update k.proc p { k.proc p with fqtick := 0 } else k.proc := by
  obtain ⟨t, found, ran⟩ : ∃ t found, pop_MLFQ k p = .ok (t, found) := by
    unfold pop_MLFQ
    rw [if_pos low]
    split
    · exact ⟨_, _, rfl⟩
    · exact ⟨_, _, rfl⟩
  have rest : t.strides = k.strides ∧ t.tick = k.tick := by
    have again := ran
    unfold pop_MLFQ at again
    rw [if_pos low] at again
    split at again
    · cases again
      exact ⟨rfl, rfl⟩
    · cases again
      exact ⟨rfl, rfl⟩
  obtain ⟨placed, missing, there, _⟩ := pop_placed good.placed ran
  have total : ∀ l < 3, (t.queues l).total = (filled NPROC (t.queues l).holdingproc : Int) := by
    intro l small
    rcases (pop_cases ran).2 with ⟨_, same, _⟩ | ⟨i, _, slot, here, _, queues⟩
    · rw [same]
      exact good.total l small
    rw [queues]
    by_cases same : l = (k.proc p).level
    · rw [same, update_self]
      have cleared := filled_clear slot here
      have before := good.total _ low
      dsimp only
      omega
    · rw [update_of_ne same]
      exact good.total l small
  obtain ⟨consistent, held⟩ := represented_of_placed placed
    (fun q both => (good.inside both.1).1) total
  refine ⟨t, found, ran, consistent, held, ⟨there, fun present => ?_⟩, rest.1, rest.2, ?_⟩
  · by_contra no
    have same := missing (Bool.eq_false_iff.mpr no)
    rw [same] at held
    exact ((held p).mp present).2 rfl
  · rcases (pop_cases ran).2 with ⟨no, same, _⟩ | ⟨_, yes, _, _, proc, _⟩
    · rw [no, same]
      rfl
    · rw [yes, proc]
      rfl

/-- `level_change_MLFQ` moves a process that a queue holds, and no other process. -/
theorem level_change_held (good : Represented k) (held : Held k p) (low : level < 3) :
    ∃ t, level_change_MLFQ k p level = .ok (t, true) ∧ Represented t ∧ (∀ q, Held t q ↔ Held k q) ∧
      t.proc = update k.proc p (queued (k.proc p) level) ∧ t.strides = k.strides ∧
      t.tick = k.tick := by
  obtain ⟨inside, small⟩ := good.inside held
  obtain ⟨u, found, popped, between, left, present, strides, tick, proc⟩ := pop_spec good small
  rw [present.mpr held] at popped proc
  obtain ⟨t, pushed, after, back, proc', strides', tick'⟩ :=
    push_spec between (fun stays => ((left p).mp stays).2 rfl) inside low
  refine ⟨t, bind_eq_ok.mpr ⟨(u, true), popped, ?_⟩, after, fun q => ?_, ?_, strides'.trans strides,
    tick'.trans tick⟩
  · exact congrArg Except.ok pushed
  · rw [back q, left q]
    by_cases same : q = p
    · rw [same]
      exact ⟨fun _ => held, fun _ => .inr rfl⟩
    · exact ⟨fun given => (given.resolve_right same).1, fun given => .inl ⟨given, same⟩⟩
  · rw [proc', proc, if_pos rfl, update_self, update_idem]
    rfl

theorem level_change_absent (good : Represented k) (absent : ¬ Held k p)
    (low : (k.proc p).level < 3) :
    level_change_MLFQ k p level = .ok (k, false) := by
  obtain ⟨u, found, popped, _, _, present, _⟩ := pop_spec good low
  have no : found = false := Bool.eq_false_iff.mpr fun yes => absent (present.mp yes)
  rw [no] at popped
  rcases (pop_cases popped).2 with ⟨_, same, _⟩ | ⟨_, yes, _⟩
  · rw [same] at popped
    exact bind_eq_ok.mpr ⟨_, popped, rfl⟩
  · cases yes

end Operations

instance (k : Kernel) (p : Nat) : Decidable (Held k p) :=
  inferInstanceAs (Decidable (∃ level < 3, ∃ i < NPROC, _))

/-- The queues are consistent and hold the same processes. -/
structure Requeued (k t : Kernel) : Prop where
  consistent : Represented t
  held : ∀ q, Held t q ↔ Held k q

theorem Represented.requeued (good : Represented k) : Requeued k k := ⟨good, fun _ => Iff.rfl⟩

theorem Requeued.trans (first : Requeued k u) (second : Requeued u t) : Requeued k t :=
  ⟨second.consistent, fun q => (second.held q).trans (first.held q)⟩

theorem requeued_of_queues (good : Represented k) (queues : t.queues = k.queues)
    (level : ∀ p, Held k p → (t.proc p).level = (k.proc p).level) : Requeued k t :=
  ⟨good.congr queues level, fun _ => held_congr queues⟩

/-- The scheduler moves the places where its searches begin, and lets entries pay. -/
theorem requeued_current (good : Represented k) (strides : Nat → Stride)
    (curthread current : Nat → Nat) :
    Requeued k { k with
      strides := strides
      proc := fun q => { k.proc q with curthread := curthread q }
      queues := fun level => { k.queues level with current := current level } } :=
  ⟨⟨good.total, good.once, good.level⟩, fun _ => Iff.rfl⟩

theorem level_change_requeued (good : Represented k) (small : (k.proc p).level < 3)
    (low : level < 3) :
    ∃ t moved, level_change_MLFQ k p level = .ok (t, moved) ∧ Requeued k t := by
  by_cases held : Held k p
  · obtain ⟨t, changed, after, same, _⟩ := level_change_held good held low
    exact ⟨t, true, changed, after, same⟩
  · exact ⟨k, false, level_change_absent good held small, good.requeued⟩

section Boost

/-- The process is one that `boost_priority` moves. -/
def Sunk (k : Kernel) (p : Nat) : Prop := Held k p ∧ (k.proc p).level ≠ 0
deriving Decidable

/-- The processes of `done` that were in the lower queues are at the top. -/
structure Raised (k : Kernel) (done : List Nat) (t : Kernel) : Prop where
  requeued : Requeued k t
  proc : ∀ q, t.proc q = if q ∈ done ∧ Sunk k q then queued (k.proc q) 0 else k.proc q
  strides : t.strides = k.strides

/-- One round of the loop. A process at a lower level that no queue holds stays as it is. -/
theorem Raised.next {done : List Nat} (raised : Raised k done u) (p : Nat) :
    ∃ t, (if (u.proc p).level = 1 ∨ (u.proc p).level = 2 then do
        let (k, _) ← level_change_MLFQ u p 0
        .ok k
      else .ok u) = .ok t ∧ Raised k (done ++ [p]) t := by
  have others : ∀ q, q ≠ p → (q ∈ done ++ [p] ↔ q ∈ done) := by
    intro q other
    simp [other]
  by_cases lower : (u.proc p).level = 1 ∨ (u.proc p).level = 2
  · rw [if_pos lower]
    have untouched : ¬ (p ∈ done ∧ Sunk k p) := by
      intro before
      have top := raised.proc p
      rw [if_pos before] at top
      rw [top] at lower
      exact absurd lower (by simp [queued])
    have old : u.proc p = k.proc p := (raised.proc p).trans (if_neg untouched)
    by_cases held : Held u p
    · obtain ⟨t, changed, after, same, proc, strides, _⟩ :=
        level_change_held raised.requeued.consistent held (by decide : 0 < 3)
      refine ⟨t, bind_eq_ok.mpr ⟨_, changed, rfl⟩, raised.requeued.trans ⟨after, same⟩, fun q => ?_,
        strides.trans raised.strides⟩
      rw [proc]
      by_cases here : q = p
      · have sunk : Sunk k p := ⟨(raised.requeued.held p).mp held, by rw [← old]; omega⟩
        rw [here, update_self, old, if_pos ⟨by simp, sunk⟩]
      · rw [update_of_ne here, raised.proc q]
        simp only [others q here]
    · refine ⟨u, bind_eq_ok.mpr ⟨_, level_change_absent raised.requeued.consistent held (by omega),
        rfl⟩,
        raised.requeued, fun q => ?_, raised.strides⟩
      by_cases here : q = p
      · have free : ¬ Sunk k p := fun sunk => held ((raised.requeued.held p).mpr sunk.1)
        rw [here, old, if_neg (fun both => free both.2)]
      · rw [raised.proc q]
        simp only [others q here]
  · rw [if_neg lower]
    refine ⟨u, rfl, raised.requeued, fun q => ?_, raised.strides⟩
    by_cases here : q = p
    · -- either the round for `p` was before, or `p` is at the top or in no queue
      subst here
      by_cases before : q ∈ done ∧ Sunk k q
      · rw [raised.proc q, if_pos before, if_pos ⟨by simp, before.2⟩]
      have old : u.proc q = k.proc q := (raised.proc q).trans (if_neg before)
      have free : ¬ Sunk k q := by
        intro sunk
        have held := (raised.requeued.held q).mpr sunk.1
        have small := (raised.requeued.consistent.inside held).2
        have lower' := sunk.2
        rw [← old] at lower'
        omega
      rw [old, if_neg (fun both => free both.2)]
    · rw [raised.proc q]
      simp only [others q here]

/-- `boost_priority` moves what the lower queues hold to the top. -/
structure Boosted (k t : Kernel) : Prop where
  requeued : Requeued k t
  proc : ∀ q, t.proc q = if Sunk k q then queued (k.proc q) 0 else k.proc q
  strides : t.strides = k.strides
  tick : t.tick = 0

theorem boost_spec (good : Represented k) : ∃ t, boost_priority k = .ok t ∧ Boosted k t := by
  unfold boost_priority
  have start : Raised k [] k := ⟨good.requeued, fun q => by simp, rfl⟩
  obtain ⟨u, loop, raised⟩ := foldlM_total (Raised k)
    (fun done p rest v (_ : List.range NPROC = _) raised => raised.next p) start
  refine ⟨{ u with tick := 0 }, bind_eq_ok.mpr ⟨u, loop, rfl⟩, ?_, fun q => ?_, raised.strides, rfl⟩
  · exact raised.requeued.trans (requeued_of_queues raised.requeued.consistent rfl fun _ _ => rfl)
  · show u.proc q = _
    rw [raised.proc q]
    by_cases sunk : Sunk k q
    · rw [if_pos sunk, if_pos ⟨List.mem_range.mpr (good.inside sunk.1).1, sunk⟩]
    · rw [if_neg sunk, if_neg (fun both => sunk both.2)]

theorem Boosted.top (boosted : Boosted k t) (held : Held k p) : (t.proc p).level = 0 := by
  rw [boosted.proc p]
  by_cases sunk : Sunk k p
  · rw [if_pos sunk]
    rfl
  · rw [if_neg sunk]
    by_contra lower
    exact sunk ⟨held, lower⟩

theorem Boosted.empty (boosted : Boosted k t) (lower : level = 1 ∨ level = 2) :
    (t.queues level).total = 0 ∧ ∀ i < NPROC, (t.queues level).holdingproc i = none := by
  have slots : ∀ i < NPROC, (t.queues level).holdingproc i = none := by
    intro i inside
    cases holder : (t.queues level).holdingproc i with
    | none => rfl
    | some p =>
      have low : level < 3 := by omega
      have held := (boosted.requeued.held p).mp ⟨level, low, i, inside, holder⟩
      have same := (boosted.requeued.consistent.level level i p low inside holder).2
      have zero := boosted.top held
      omega
  refine ⟨?_, slots⟩
  rw [boosted.requeued.consistent.total level (by omega), filled, Finset.filter_false_of_mem]
  · rfl
  · intro i member
    simpa using slots i (Finset.mem_range.mp member)

end Boost

section Tick

/-- How many ticks a process runs on at its level. -/
def length : Nat → Nat
  | 0 => 5
  | 1 => 10
  | _ => 20

/-- The ticks that a process may use at its level are used up. -/
def Spent (level allot : Nat) : Prop := level = 0 ∧ 20 ≤ allot ∨ level = 1 ∧ 40 ≤ allot
deriving Decidable

/-- After the tick is counted. -/
def counted (k : Kernel) (p : Nat) : Kernel :=
  { paid k p with tick := k.tick + 1 }.setProc p { k.proc p with fqtick := (k.proc p).fqtick + 1 }

theorem increasealltick_alone (alone : (k.proc p).isthread = false) :
    increasealltick k p = .ok (k.setProc p { k.proc p with fqtick := (k.proc p).fqtick + 1 }) := by
  rw [increasealltick, alone]
  rfl

theorem counted_proc (k : Kernel) (p : Nat) : (counted k p).proc =
    update k.proc p { k.proc p with fqtick := (k.proc p).fqtick + 1 } := rfl

theorem counted_requeued (good : Represented k) (p : Nat) : Requeued k (counted k p) := by
  refine requeued_of_queues good rfl fun q _ => ?_
  exact Update.same Proc.level (by rfl) q

/-- The move to the next level, if it is due. -/
def demoted (k : Kernel) (p : Nat) : Except Stop (Kernel × Bool) :=
  if Spent (k.proc p).level ((k.proc p).fqtick + 1)
  then level_change_MLFQ (counted k p) p ((k.proc p).level + 1)
  else .ok (counted k p, false)

theorem tick_add_eq (alone : (k.proc p).isthread = false) (mlfq : (k.proc p).isstride = false)
    (low : (k.proc p).level < 3) :
    tick_add_MLFQ k p = demoted k p >>= fun moved =>
      quantum moved.1 ((k.proc p).fqtick + 1) (length (k.proc p).level) := by
  have increased : increasealltick { paid k p with tick := (paid k p).tick + 1 } p =
    .ok (counted k p) :=
    increasealltick_alone alone
  have own : (counted k p).proc p = { k.proc p with fqtick := (k.proc p).fqtick + 1 } := by
    rw [counted_proc, update_self]
  have other : ¬ ((paid k p).proc p).isstride = true := by
    rw [show (paid k p).proc = k.proc from rfl, mlfq]
    decide
  unfold tick_add_MLFQ
  show (if ((paid k p).proc p).isstride then _ else _) = _
  rw [if_neg other]
  refine (congrArg (fun result => result >>= _) increased).trans ?_
  show (if ((counted k p).proc p).level = 0 then _ else _) = _
  rw [own, demoted]
  dsimp only
  obtain top | middle | bottom : (k.proc p).level = 0 ∨ (k.proc p).level = 1 ∨
      (k.proc p).level = 2 := by
    omega
  · rw [top]
    by_cases spent : 20 ≤ (k.proc p).fqtick + 1
    · simp [Spent, length, spent]
    · simp [Spent, length, spent]
  · rw [middle]
    by_cases spent : 40 ≤ (k.proc p).fqtick + 1
    · simp [Spent, length, spent]
    · simp [Spent, length, spent]
  · rw [bottom]
    simp [Spent, length]
    rfl

/-- A tick of `p` boosts. -/
def Boosts (k : Kernel) (p : Nat) : Prop :=
  (k.proc p).isstride = false ∧ (k.proc p).level < 3 ∧ 200 < k.tick + 1 ∧
    ((k.proc p).fqtick + 1) % length (k.proc p).level = 0
deriving Decidable

section

variable (good : Represented k)
include good

theorem quantum_spec (allot length : Nat) :
    ∃ t, quantum k allot length = .ok (t, decide (allot % length = 0)) ∧ Requeued k t ∧
      (¬ (200 < k.tick ∧ allot % length = 0) → t = k) ∧
      ∀ q, t.proc q = k.proc q ∨ t.proc q = queued (k.proc q) 0 := by
  unfold quantum
  by_cases due : allot % length = 0
  · rw [if_pos due, decide_eq_true due]
    by_cases late : k.tick > 200
    · rw [if_pos late]
      obtain ⟨t, boosted, spec⟩ := boost_spec good
      refine ⟨t, bind_eq_ok.mpr ⟨t, boosted, rfl⟩, spec.requeued, fun no => absurd ⟨late, due⟩ no,
        fun q => ?_⟩
      rw [spec.proc q]
      split
      · exact .inr rfl
      · exact .inl rfl
    · rw [if_neg late]
      exact ⟨k, rfl, good.requeued, fun _ => rfl, fun _ => .inl rfl⟩
  · rw [if_neg due, decide_eq_false due]
    exact ⟨k, rfl, good.requeued, fun _ => rfl, fun _ => .inl rfl⟩

/-- What a tick leaves of the process that it is charged to, if a queue holds it. -/
def ticked (p : Proc) : Proc :=
  if Spent p.level (p.fqtick + 1) then queued p (p.level + 1) else { p with fqtick := p.fqtick + 1 }

theorem demoted_spec (low : (k.proc p).level < 3) :
    ∃ u moved, demoted k p = .ok (u, moved) ∧ Requeued k u ∧ u.tick = k.tick + 1 ∧
      (Held k p → u.proc = update k.proc p (ticked (k.proc p))) ∧
      ∀ q, q ≠ p → u.proc q = k.proc q := by
  have first := counted_requeued good p
  have small : ((counted k p).proc p).level < 3 := by
    rw [counted_proc, update_self]
    exact low
  unfold demoted
  by_cases spent : Spent (k.proc p).level ((k.proc p).fqtick + 1)
  · rw [if_pos spent]
    have next : (k.proc p).level + 1 < 3 := by
      unfold Spent at spent
      omega
    by_cases held : Held (counted k p) p
    · obtain ⟨u, changed, after, same, proc, _, tick⟩ :=
        level_change_held first.consistent held next
      have moved : u.proc = update k.proc p (ticked (k.proc p)) := by
        rw [proc, counted_proc, update_self, update_idem, ticked, if_pos spent]
        rfl
      refine ⟨u, true, changed, first.trans ⟨after, same⟩, tick, fun _ => moved, fun q other => ?_⟩
      rw [moved, update_of_ne other]
    · refine ⟨_, false, level_change_absent first.consistent held small, first, rfl,
        fun present => absurd ((first.held p).mpr present) held, fun q other => ?_⟩
      rw [counted_proc, update_of_ne other]
  · rw [if_neg spent]
    refine ⟨_, false, rfl, first, rfl, fun _ => ?_, fun q other => ?_⟩
    · rw [counted_proc, ticked, if_neg spent]
    · rw [counted_proc, update_of_ne other]

/-- A tick charged to a process at one of the three levels. -/
theorem tick_spec (alone : (k.proc p).isthread = false) (mlfq : (k.proc p).isstride = false)
    (low : (k.proc p).level < 3) :
    ∃ t,
      tick_add_MLFQ k p = .ok (t, decide (((k.proc p).fqtick + 1) % length (k.proc p).level = 0)) ∧
      Requeued k t ∧ (¬ Boosts k p → Held k p → t.proc = update k.proc p (ticked (k.proc p))) ∧
      (¬ Boosts k p → ∀ q, q ≠ p → t.proc q = k.proc q) := by
  rw [tick_add_eq alone mlfq low]
  obtain ⟨u, moved, changed, second, tick, proc, others⟩ := demoted_spec good low
  obtain ⟨t, ended, third, same, _⟩ := quantum_spec second.consistent ((k.proc p).fqtick + 1)
    (length (k.proc p).level)
  have calm : ¬ Boosts k p → t = u := fun no => same fun ⟨late, due⟩ =>
    no ⟨mlfq, low, tick ▸ late, due⟩
  refine ⟨t, bind_eq_ok.mpr ⟨_, changed, ended⟩, second.trans third, ?_, ?_⟩
  · intro no held
    rw [calm no, proc held]
  · intro no q other
    rw [calm no, others q other]

/-- What a tick may do to the counters of processes: one more for its own, or zero after a move. -/
theorem tick_counts (held : Held k p) (alone : (k.proc p).isthread = false)
    (mlfq : (k.proc p).isstride = false) (ran : tick_add_MLFQ k p = .ok (t, yields)) :
    ((t.proc p).fqtick = (k.proc p).fqtick + 1 ∨ (t.proc p).fqtick = 0) ∧
      ∀ q, q ≠ p → (t.proc q).fqtick = (k.proc q).fqtick ∨ (t.proc q).fqtick = 0 := by
  have low := (good.inside held).2
  rw [tick_add_eq alone mlfq low] at ran
  obtain ⟨⟨u, moved⟩, demotes, ends⟩ := bind_eq_ok.mp ran
  obtain ⟨v, _, same, second, _, proc, others⟩ := demoted_spec good low
  cases same.symm.trans demotes
  obtain ⟨w, ended, _, _, either⟩ := quantum_spec second.consistent ((k.proc p).fqtick + 1)
    (length (k.proc p).level)
  cases ended.symm.trans ends
  refine ⟨?_, fun q other => ?_⟩
  · rcases either p with same | zero
    · rw [same, proc held, update_self, ticked]
      split
      · exact .inr rfl
      · exact .inl rfl
    · rw [zero]
      exact .inr rfl
  · rcases either q with same | zero
    · rw [same, others q other]
      exact .inl rfl
    · rw [zero]
      exact .inr rfl

end

/-- Outside the three levels a tick is only counted. -/
theorem tick_outside (alone : (k.proc p).isthread = false)
    (outside : ¬ ((k.proc p).isstride = false ∧ (k.proc p).level < 3)) :
    ∃ t yields, tick_add_MLFQ k p = .ok (t, yields) ∧ t.queues = k.queues ∧
      t.proc = update k.proc p { k.proc p with fqtick := (k.proc p).fqtick + 1 } := by
  unfold tick_add_MLFQ
  show ∃ t yields, (if ((paid k p).proc p).isstride then _ else _) = _ ∧ _
  cases holder : ((paid k p).proc p).isstride with
  | true =>
    rw [if_pos rfl]
    exact ⟨_, _, bind_eq_ok.mpr ⟨_, increasealltick_alone alone, rfl⟩, rfl, rfl⟩
  | false =>
    rw [if_neg (by decide)]
    have high : ¬ (k.proc p).level < 3 := fun low => outside ⟨holder, low⟩
    have own : ((counted k p).proc p).level = (k.proc p).level := by
      rw [counted_proc, update_self]
    refine ⟨counted k p, true, bind_eq_ok.mpr ⟨counted k p, increasealltick_alone alone, ?_⟩, rfl,
      rfl⟩
    dsimp only
    rw [if_neg (by omega), if_neg (by omega), if_neg (by omega)]

theorem tick_requeued (good : Represented k) (alone : (k.proc p).isthread = false) :
    ∃ t yields, tick_add_MLFQ k p = .ok (t, yields) ∧ Requeued k t := by
  by_cases inside : (k.proc p).isstride = false ∧ (k.proc p).level < 3
  · obtain ⟨t, ran, requeued, _⟩ := tick_spec good alone inside.1 inside.2
    exact ⟨t, _, ran, requeued⟩
  obtain ⟨t, yields, ran, queues, proc⟩ := tick_outside alone inside
  refine ⟨t, yields, ran, requeued_of_queues good queues fun q _ => ?_⟩
  rw [proc]
  exact Update.same Proc.level (by rfl) q

end Tick

/-- The operations on the queues keep them consistent, no process that a queue holds is lost, and
`boost_priority` moves all of them to the top. -/
theorem queues_represented (k : Kernel) (good : Represented k) :
    (∀ p level, ¬ Held k p → p < NPROC → level < 3 →
      ∃ t, push_MLFQ k p level = (t, true) ∧ Represented t ∧ ∀ q, Held t q ↔ Held k q ∨ q = p) ∧
    (∀ p, (k.proc p).level < 3 →
      ∃ t found, pop_MLFQ k p = .ok (t, found) ∧ Represented t ∧ ∀ q, Held t q ↔ Held k q ∧ q ≠ p) ∧
    (∀ p level, (k.proc p).level < 3 → level < 3 →
      ∃ t moved, level_change_MLFQ k p level = .ok (t, moved) ∧ Represented t ∧ ∀ q,
        Held t q ↔ Held k q) ∧
    (∀ p, (k.proc p).isthread = false →
      ∃ t yields, tick_add_MLFQ k p = .ok (t, yields) ∧ Represented t ∧ ∀ q, Held t q ↔ Held k q) ∧
    ∃ t, boost_priority k = .ok t ∧ Represented t ∧ (∀ q, Held t q ↔ Held k q) ∧
      (∀ level, level = 1 ∨ level = 2 →
        (t.queues level).total = 0 ∧ ∀ i < NPROC, (t.queues level).holdingproc i = none) ∧
      (∀ q, Held k q → (t.proc q).level = 0 ∧ ((k.proc q).level ≠ 0 → (t.proc q).fqtick = 0)) ∧
      t.tick = 0 := by
  refine ⟨?_, ?_, ?_, ?_, ?_⟩
  · intro p level absent inside low
    obtain ⟨t, pushed, after, held, _⟩ := push_spec good absent inside low
    exact ⟨t, pushed, after, held⟩
  · intro p low
    obtain ⟨t, found, popped, after, held, _⟩ := pop_spec good low
    exact ⟨t, found, popped, after, held⟩
  · intro p level small low
    obtain ⟨t, moved, changed, requeued⟩ := level_change_requeued good small low
    exact ⟨t, moved, changed, requeued.consistent, requeued.held⟩
  · intro p alone
    obtain ⟨t, yields, returned, requeued⟩ := tick_requeued good alone
    exact ⟨t, yields, returned, requeued.consistent, requeued.held⟩
  · obtain ⟨t, boosted, spec⟩ := boost_spec good
    refine ⟨t, boosted, spec.requeued.consistent, spec.requeued.held, fun level => spec.empty,
      fun q held => ⟨spec.top held, fun lower => ?_⟩, spec.tick⟩
    rw [spec.proc q, if_pos ⟨held, lower⟩]
    rfl

/-- One process in the lowest queue. -/
theorem queues_represented_low : ∃ k t, Represented k ∧ Held k 3 ∧ (k.proc 3).level = 2 ∧
    boost_priority k = .ok t ∧ Held t 3 ∧ (t.proc 3).level = 0 ∧ t.tick = 0 := by
  obtain ⟨k, _, good, present, own, _⟩ := push_boot (by decide : 2 < 3)
  have low : (k.proc 3).level = 2 := by
    rw [own]
    rfl
  obtain ⟨_, _, _, _, t, boosted, _, same, _, moved, tick⟩ := queues_represented k good
  exact ⟨k, t, good, present, low, boosted, (same 3).mpr present, (moved 3 present).1, tick⟩

end Xv6.Process.Mlfq
