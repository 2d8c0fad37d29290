import Mathlib.Data.Finset.Max
import Xv6.Process.Single

/- The fairness of stride scheduling on one CPU. The entry with the least pass is the one that pays,
for at most 20 ticks at a time; so the passes stay close to each other as long as the search in the
queues finds a process. It leaves out one slot, the one of the process it found last. -/
namespace Xv6.Process.Single

open Outcome Dispatch
open Dispatch (isRunnable Searched Lowest Found)
open Queue (Event Member)
open Sched (rank paid)

variable {k t u : Kernel} {p q : Nat} {most : Int} {select w : Nat}

/-- The entries in use. -/
def Active (k : Kernel) (j : Nat) : Prop := j < NPROC ∧ (k.strides j).stride ≠ 0
deriving Decidable

/-- A process in one of the slots that `exec_MLFQ` looks at is RUNNABLE. -/
def Searchable (k : Kernel) : Prop :=
  ∃ level < 3, (k.queues level).total ≠ 0 ∧ ∃ i < NPROC, Searched (k.queues level) i ∧
    isRunnable k ((k.queues level).holdingproc i) = true

instance (queue : FQ) (i : Nat) : Decidable (Searched queue i) :=
  inferInstanceAs (Decidable (∃ j < NPROC - 1, i = (queue.current + j) % NPROC))

instance (k : Kernel) : Decidable (Searchable k) := inferInstanceAs (Decidable (∃ level < 3, _))

/-- All holders of a share are RUNNABLE, and some process without one is. -/
def Busy (k : Kernel) : Prop :=
  (∀ j < NPROC, j ≠ 0 → (k.strides j).stride ≠ 0 → isRunnable k (k.strides j).proc = true) ∧
  ∃ q < NPROC, (k.proc q).isstride = false ∧ (k.proc q).state = .runnable

instance (k : Kernel) : Decidable (Busy k) := inferInstanceAs (Decidable (_ ∧ _))

/-- The holders stay the same and are always RUNNABLE when they do not run, and so is a process of
the queues; the passes are not beyond the limit. -/
def Fixed (k : Kernel) (event : Event) : Prop :=
  (∀ j < NPROC, (k.strides j).pass ≤ 200000000) ∧
  match event with
  | .setCpuShare _ portion => 80 < Sched.total k portion
  | .exit p => (k.proc p).isstride = false
  | .dispatch _ => Busy k
  | _ => True

instance (k : Kernel) (event : Event) : Decidable (Fixed k event) := by
  rcases event <;> dsimp only [Fixed] <;> infer_instance

/-- And the search in the queues finds a process. -/
def Steady (k : Kernel) (event : Event) : Prop :=
  Proper k event ∧ Fixed k event ∧
  match event with
  | .dispatch _ => Searchable k
  | _ => True

instance (k : Kernel) (event : Event) : Decidable (Steady k event) := by
  rcases event <;> dsimp only [Steady] <;> infer_instance

theorem remaining_mul_le (p : Proc) (nonneg : 0 ≤ most) : remaining p * most ≤ 20 * most := by
  have bounds := remaining_bounds p
  exact Int.mul_le_mul_of_nonneg_right (by omega) nonneg

/-- The passes are within 20 strides of each other, also after the ticks that the running process
may still use. -/
structure Even (k : Kernel) (most : Int) : Prop where
  bound : ∀ j, Active k j → (k.strides j).stride ≤ most
  close : ∀ i j, Active k i → Active k j → (k.strides i).pass ≤ (k.strides j).pass + 20 * most
  room : ∀ p, (k.proc p).state = .running → Active k (k.proc p).mystride → ∀ j, Active k j →
    (k.strides (k.proc p).mystride).pass + remaining (k.proc p) * most ≤ (k.strides j).pass + 20 *
      most

theorem Even.nonneg {j : Nat} (even : Even k most) (valid : Valid k) (active : Active k j) :
    0 ≤ most := by
  have bound := even.bound j active
  have lower := (valid.ledger.stride j).1
  omega

theorem remaining_same {old new : Proc} (same : rank new = rank old)
    (ticks : new.fqtick = old.fqtick) :
    remaining new = remaining old := by
  simp only [rank, Prod.mk.injEq] at same
  unfold remaining
  rw [same.1, same.2.2, ticks]

theorem Even.calm (even : Even k most) (strides : t.strides = k.strides)
    (runs : ∀ q, (t.proc q).state = .running → (k.proc q).state = .running ∧
      rank (t.proc q) = rank (k.proc q) ∧ (t.proc q).fqtick = (k.proc q).fqtick) : Even t most := by
  have active : ∀ j, Active t j ↔ Active k j := fun j => by rw [Active, Active, strides]
  refine ⟨fun j given => ?_, fun i j first second => ?_, fun p running payer j given => ?_⟩
  · rw [strides]
    exact even.bound j ((active j).mp given)
  · rw [strides]
    exact even.close i j ((active i).mp first) ((active j).mp second)
  · obtain ⟨before, same, ticks⟩ := runs p running
    have entry : (t.proc p).mystride = (k.proc p).mystride := congrArg (·.2.1) same
    rw [entry] at payer ⊢
    rw [strides, remaining_same same ticks]
    exact even.room p before ((active _).mp payer) j ((active j).mp given)

/-- The entry that is chosen is the one that pays. -/
theorem payer (valid : Valid k) (lowest : Lowest k select (some w)) :
    (k.proc w).mystride = select := by
  rcases lowest.2 with ⟨zero, found⟩ | ⟨p, w', other, candidate, held, isChosen, _, isOwner⟩
  · obtain ⟨_, level, mem, i, p, ⟨j, _, place⟩, held, alone⟩ := found
    have low : level < 3 := by
      simp only [List.mem_cons, List.not_mem_nil, or_false] at mem
      omega
    have inside : i < NPROC := by
      rw [place]
      exact Nat.mod_lt _ (by decide)
    have member := (valid.fair.placed.held level i p low inside held).1
    rw [alone (valid.fair.alone p).isthread, zero]
    rcases valid.ranked p with ⟨_, entry, _⟩ | ⟨holder, _⟩
    · exact entry
    · cases member.2.symm.trans holder
  · cases isChosen
    obtain ⟨h, same, holds⟩ := valid.owned select other (candidate.resolve_left other).2.1
    cases same.symm.trans held
    rw [isOwner (valid.fair.alone _).isthread]
    exact holds.mystride

/-- The search goes on until it finds a process. -/
theorem not_idle (search : Searchable k) : ¬ Lowest k select none := by
  intro lowest
  rcases lowest.2 with ⟨_, nothing⟩ | ⟨_, _, _, _, _, impossible, _⟩
  · obtain ⟨level, low, total, i, _, searched, runs⟩ := search
    cases held : (k.queues level).holdingproc i with
    | none =>
      rw [held] at runs
      cases runs
    | some p =>
      rw [held] at runs
      refine nothing level ?_ total i p searched held (isRunnable_some.mp runs)
      simp only [List.mem_cons, List.not_mem_nil, or_false]
      omega
  · cases impossible

section

variable (valid : Valid k) (even : Even k most)
include valid even

theorem Even.dispatch (busy : Busy k) (search : Searchable k) (idle : Idle k)
    (runnable : (k.proc p).state = .runnable) (result : choose k p = .ok (u, w))
    (after : t = u.setProc w { u.proc w with state := .running }) : Even t most := by
  have choice := chosen valid.ready runnable result after
  obtain ⟨select, strides, lowest⟩ : ∃ select, u.strides = k.strides ∧
      Lowest k select (some w) := by
    cases choose_cases valid.ready p with
    | found t' w' select result' looked lowest =>
      cases result'.symm.trans result
      exact ⟨select, looked.strides, lowest⟩
    | again t' other select result' looked nothing lowest =>
      obtain ⟨_, nothing⟩ := nothing
      exact absurd nothing (not_idle search)
    | rebases high result' => cases result'.symm.trans result
  have entry := payer valid lowest
  have final : t.strides = k.strides := by rw [after, setProc_strides, strides]
  have active : ∀ j, Active t j ↔ Active k j := fun j => by rw [Active, Active, final]
  refine ⟨fun j given => ?_, fun i j first second => ?_, fun q running payer j given => ?_⟩
  · rw [final]
    exact even.bound j ((active j).mp given)
  · rw [final]
    exact even.close i j ((active i).mp first) ((active j).mp second)
  have isChosen : q = w := by
    rw [choice.state] at running
    split at running
    · assumption
    · have used : (k.proc q).state ≠ .unused := by
        rw [running]
        exact fun no => (nomatch no)
      exact absurd running (idle q (valid.fair.inside q used))
  have mine : (t.proc w).mystride = (k.proc w).mystride := congrArg (·.2.1) (choice.rank w)
  rw [isChosen, mine, entry, final]
  have given := (active j).mp given
  have least : (k.strides select).pass ≤ (k.strides j).pass := by
    apply lowest.1
    by_cases zero : j = 0
    · exact .inl zero
    · exact .inr ⟨given.1, given.2, busy.1 j given.1 zero given.2⟩
  have nonneg := even.nonneg valid given
  have bound := remaining_mul_le (t.proc w) nonneg
  omega

theorem Even.tick {yields : Bool} (low : ∀ j < NPROC, (k.strides j).pass ≤ 200000000)
    (running : (k.proc p).state = .running) (ran : tick_add_MLFQ k p = .ok (u, yields))
    (after : t = if yields then u.setProc p { u.proc p with state := .runnable } else u) :
    Even t most := by
  obtain ⟨_, paced⟩ := tick_ran valid.fair (valid.aged p) (.inr (.inl running)) (valid.ranked p) ran
  have shifts := (Sched.tick_returned ran).2
  generalize isPayer : (k.proc p).mystride = s
  have inside : s < NPROC := isPayer ▸ valid.ledger.mystride p
  -- what each entry has afterwards
  have entry : ∀ i, (t.strides i).stride = (k.strides i).stride ∧
      (t.strides i).pass = (k.strides i).pass + if i = s then (k.strides i).stride else 0 := by
    intro i
    have strides : t.strides = (paid k p).strides := by
      rw [after, ← shifts.strides]
      split <;> rfl
    have bounds := valid.ledger.stride i
    have ticket : (MAXTICKET : Int) = 100000 := rfl
    have range := valid.range i
    rw [strides, Sched.paid_strides, isPayer]
    split
    · rename_i same
      have small := low i (same ▸ inside)
      refine ⟨rfl, ?_⟩
      dsimp only
      rw [Sched.int_eq (by omega) (by omega)]
    · exact ⟨rfl, (Int.add_zero _).symm⟩
  have active : ∀ j, Active t j ↔ Active k j := fun j => by rw [Active, Active, (entry j).1]
  have used : Active k s → ∀ j, Active k j → (k.strides s).pass + remaining (k.proc p) * most ≤
      (k.strides j).pass + 20 * most := by
    intro payer j given
    rw [← isPayer] at payer ⊢
    exact even.room p running payer j given
  have ticks := remaining_bounds (k.proc p)
  refine ⟨fun j given => ?_, fun i j first second => ?_, fun q runs payer j given => ?_⟩
  · rw [(entry j).1]
    exact even.bound j ((active j).mp given)
  · rw [active] at first second
    rw [(entry i).2, (entry j).2]
    have close := even.close i j first second
    have positive := (valid.ledger.stride j).1
    by_cases own : i = s
    · have nonneg := even.nonneg valid first
      have bound := even.bound i first
      have room := used (own ▸ first) j second
      have once : most ≤ remaining (k.proc p) * most := by
        have := Int.mul_le_mul_of_nonneg_right (by omega : (1 : Int) ≤ remaining (k.proc p)) nonneg
        omega
      rw [own] at bound ⊢
      rw [if_pos rfl]
      by_cases same : j = s
      · rw [if_pos same, same]
        omega
      · rw [if_neg same]
        omega
    · rw [if_neg own]
      split
      · omega
      · omega
  · have isRunning : q = p ∧ yields = false := by
      have states : ∀ r, (u.proc r).state = (k.proc r).state := fun r => (shifts.seat r).2.2.2.1
      cases yields with
      | false =>
        rw [after] at runs
        exact ⟨valid.single q p ((states q).symm.trans runs) running, rfl⟩
      | true =>
        rw [after, if_pos rfl, setProc_proc] at runs
        by_cases same : q = p
        · rw [same, Function.update_self] at runs
          cases runs
        · rw [Function.update_of_ne same] at runs
          exact absurd (valid.single q p ((states q).symm.trans runs) running) same
    obtain ⟨isRunning, no⟩ := isRunning
    have final : u = t := by rw [after, no]; rfl
    rw [final] at paced
    have same : (t.proc p).mystride = (k.proc p).mystride := congrArg (·.2.1) (paced.rank no)
    rw [isRunning, same, isPayer] at payer ⊢
    rw [active] at payer given
    rw [(entry s).2, (entry j).2, if_pos rfl]
    have nonneg := even.nonneg valid payer
    have bound := even.bound s payer
    have room := used payer j given
    have fewer := paced.remaining no
    have positive := (valid.ledger.stride j).1
    have one : (remaining (t.proc p) + 1 : Int) * most ≤ remaining (k.proc p) * most :=
      Int.mul_le_mul_of_nonneg_right (by omega) nonneg
    have all := remaining_mul_le (t.proc p) nonneg
    rw [Int.add_mul, Int.one_mul] at one
    by_cases own : j = s
    · rw [own, if_pos rfl]
      omega
    · rw [if_neg own]
      omega

theorem even_step {event : Event} (steady : Steady k event) (taken : step k event = some t) :
    Even t most ∧ ∀ j, (t.strides j).stride = (k.strides j).stride := by
  obtain ⟨_, ⟨low, fixed⟩, search⟩ := steady
  cases step_act valid.fair valid.linked taken with
  | call event call isCall effects paced strides _ =>
    have same : t.strides = k.strides := by
      apply strides
      rintro p rfl
      exact fixed
    exact ⟨even.calm same fun q running => (paced q).runs running, fun j => by rw [same]⟩
  | share p portion done running ran =>
    rcases Sched.set_cpu_share_eq ran with ⟨_, same, _⟩ | ⟨_, j, granted⟩
    · rw [same]
      exact ⟨even, fun _ => rfl⟩
    · have fits := granted.fits
      omega
  | tick p u yields running ran after =>
    refine ⟨even.tick valid low running ran after, fun j => ?_⟩
    have strides : t.strides = (paid k p).strides := by
      rw [after, ← (Sched.tick_returned ran).2.strides]
      split <;> rfl
    rw [strides]
    exact (Sched.paid_books k p j).1
  | dispatch p w u idle inside runnable result after =>
    refine ⟨even.dispatch valid fixed search idle runnable result after, fun j => ?_⟩
    have final : t.strides = u.strides := by rw [after, setProc_strides]
    rcases (choose_eq valid.ready runnable result).2 with looked | looked
    · rw [final, looked.strides]
    · rw [final, looked.strides]
      exact (Sched.charge_books k j).1

end

/-- The largest stride in use. -/
theorem exists_largest {i : Nat} (active : Active k i) :
    ∃ l, Active k l ∧ ∀ j, Active k j → (k.strides j).stride ≤ (k.strides l).stride := by
  have nonempty : ((Finset.range NPROC).filter fun j => (k.strides j).stride ≠ 0).Nonempty :=
    ⟨i, Finset.mem_filter.mpr ⟨Finset.mem_range.mpr active.1, active.2⟩⟩
  obtain ⟨l, mem, largest⟩ := Finset.exists_max_image _ (fun j => (k.strides j).stride) nonempty
  obtain ⟨inside, used⟩ := Finset.mem_filter.mp mem
  refine ⟨l, ⟨Finset.mem_range.mp inside, used⟩, fun j given => largest j ?_⟩
  exact Finset.mem_filter.mpr ⟨Finset.mem_range.mpr given.1, given.2⟩

theorem even_start (valid : Valid k) (bound : ∀ j, Active k j → (k.strides j).stride ≤ most)
    (equal : ∀ i j, Active k i → Active k j → (k.strides i).pass = (k.strides j).pass) :
    Even k most := by
  have nonneg : ∀ j, Active k j → 0 ≤ most := fun j given =>
    Int.le_trans (valid.ledger.stride j).1 (bound j given)
  refine ⟨bound, fun i j first second => ?_, fun p _ payer j given => ?_⟩
  · have := equal i j first second
    have := nonneg i first
    omega
  · have same := equal _ j payer given
    have bound := remaining_mul_le (k.proc p) (nonneg j given)
    omega

/-- In every run from a state with equal passes, with the holders fixed and RUNNABLE and a process
that the search in the queues finds: the passes of the entries in use differ by at most 20 times the
largest stride. -/
theorem strides_fair (mem : Vm.Mem) (code : Nat → UInt8) (k : Kernel)
    (booted : userinit (Kernel.boot mem) code = .ok k) (before : List Event)
    (proper : Run.Steps step Proper k before) (u : Kernel)
    (reached : Run.exec step k before = some u)
    (equal : ∀ i j, Active u i → Active u j → (u.strides i).pass = (u.strides j).pass)
    (events : List Event) (steady : Run.Steps step Steady u events) (t : Kernel)
    (run : Run.exec step u events = some t) (i j : Nat) (first : Active t i) (second : Active t j) :
    ∃ l, Active t l ∧ (t.strides i).pass - (t.strides j).pass ≤ 20 * (t.strides l).stride := by
  have valid : Valid u := Run.exec_invariant Valid (fun _ _ _ valid proper taken =>
      valid_step valid proper taken)
    (valid_boot booted) proper reached
  have after : ∀ most, Even u most → Even t most ∧ ∀ j,
      (t.strides j).stride = (u.strides j).stride := by
    intro most even
    refine (Run.exec_invariant (fun v => Valid v ∧ Even v most ∧
      ∀ j, (v.strides j).stride = (u.strides j).stride) ?_ ⟨valid, even, fun _ => rfl⟩ steady run).2
    rintro v event next ⟨valid, even, same⟩ steady taken
    obtain ⟨later, kept⟩ := even_step valid even steady taken
    exact ⟨valid_step valid steady.1 taken, later, fun j => (kept j).trans (same j)⟩
  have strides : ∀ j, (t.strides j).stride = (u.strides j).stride := by
    refine (after MAXTICKET ?_).2
    exact even_start valid (fun j _ => (valid.ledger.stride j).2) equal
  have active : ∀ j, Active t j ↔ Active u j := fun j => by rw [Active, Active, strides]
  obtain ⟨l, used, largest⟩ := exists_largest ((active i).mp first)
  refine ⟨l, (active l).mpr used, ?_⟩
  have close := (after _ (even_start valid largest equal)).1.close i j first second
  rw [strides l]
  omega

/-- init forks twice, and the first child takes ten percent; it runs for a tick, and then a process
of the queues does. -/
def shareStarts : List Event := [.dispatch 0, .fork 0, .fork 0, .yield 0, .dispatch 1,
      .setCpuShare 1 10]

def shareRuns : List Event := [.tick 1, .yield 1, .dispatch 0, .tick 2]

theorem strides_fair_small : ∃ k u t, userinit (Kernel.boot smallMem) (fun _ => 0) = .ok k ∧
    Run.exec step k shareStarts = some u ∧ Run.exec step u shareRuns = some t ∧
    ∃ l, Active t l ∧ (t.strides 1).pass - (t.strides 0).pass ≤ 20 * (t.strides l).stride := by
  have run : (bootSmall.bind fun k => (Run.exec step k shareStarts).bind fun u =>
      (Run.exec step u shareRuns).map fun t =>
        decide (Run.Steps step Proper k shareStarts ∧ Run.Steps step Steady u shareRuns ∧
          (∀ i < NPROC, ∀ j < NPROC, (u.strides i).stride ≠ 0 → (u.strides j).stride ≠ 0 →
            (u.strides i).pass = (u.strides j).pass) ∧ Active t 0 ∧ Active t 1)) = some true := by
    decide +kernel
  obtain ⟨k, start, ends⟩ := Option.bind_eq_some_iff.mp run
  obtain ⟨u, reached, ends⟩ := Option.bind_eq_some_iff.mp ends
  obtain ⟨t, ends, facts⟩ := Option.map_eq_some_iff.mp ends
  rw [decide_eq_true_eq] at facts
  obtain ⟨proper, steady, equal, zero, one⟩ := facts
  have booted := toOption_eq_some.mp start
  exact ⟨k, u, t, booted, reached, ends, strides_fair smallMem _ k booted _ proper u reached
    (fun i j first second => equal i first.1 j second.1 first.2 second.2) _ steady t
      ends 1 0 one zero⟩

/-- init forks a child that takes one percent. -/
def onePercent : List Event := [.dispatch 0, .fork 0, .yield 0, .dispatch 1, .setCpuShare 1 1]

/-- The child runs for six ticks; then the scan meets init and the child in turns, init yields at
once and the child runs for a tick. -/
def inTurns : List Event := List.replicate 6 (.tick 1) ++
  (List.replicate 15 [.dispatch 0, .yield 0, .dispatch 1, .tick 1]).flatten

/-- Entry 0 has the least pass, but init is in the slot that the search leaves out: the scan runs
whom it meets, and the child gets ahead by more than 20 times the largest stride. -/
theorem child_ahead : (bootSmall.bind fun k => (Run.exec step k onePercent).bind fun u =>
    (Run.exec step u inTurns).map fun t =>
      decide (Run.Steps step Proper k onePercent ∧
        Run.Steps step (fun k event => Proper k event ∧ Fixed k event) u inTurns ∧
        (u.strides 0).pass = (u.strides 1).pass ∧ (∀ j < NPROC, 1 < j → (u.strides j).stride = 0) ∧
        Idle t ∧ (t.strides 0).stride = 1010 ∧ (t.strides 1).stride = 100000 ∧
        (t.strides 1).pass - (t.strides 0).pass > 20 * (t.strides 1).stride)) = some true := by
  decide +kernel

end Xv6.Process.Single
