import Xv6.Process.Dispatch
import Xv6.Process.Queue

/- Which slot of the queues `exec_MLFQ` takes: the level first, then the turns within a level; and
the turns of the threads of a group in `pickthread`. -/
namespace Xv6.Process.Dispatch

open Option

variable {k t : Kernel} {p w level pos master : Nat} {levels : List Nat}

/-- The slot of the queues that `execLevels` takes, with its level and its process. -/
def select (k : Kernel) : List Nat → Option (Nat × Nat × Nat)
  | [] => none
  | level :: rest =>
    if (k.queues level).total = 0 then select k rest
    else
      match searchQueue k (k.queues level) with
      | none => select k rest
      | some (pos, p) => some (level, pos, p)

/-- What `exec_MLFQ` does with the slot. -/
def execSlot (k : Kernel) : Option (Nat × Nat × Nat) → Except Failure (Kernel × Option Nat)
  | none => .ok (k, none)
  | some (level, pos, p) => do
    let (k, w) ← pick (k.setQueue level { k.queues level with current := pos + 1 }) p
    .ok (k, some w)

theorem execLevels_eq (k : Kernel) (levels : List Nat) :
    execLevels k levels = execSlot k (select k levels) := by
  induction levels with
  | nil => rfl
  | cons level rest ih =>
    unfold execLevels select
    split
    · exact ih
    · cases search : searchQueue k (k.queues level) with
      | none => exact ih
      | some slot => rfl

/-- The slot has a RUNNABLE process. -/
def RunnableAt (k : Kernel) (level i : Nat) : Prop :=
  isRunnable k ((k.queues level).holdingproc i) = true

/-- The level has a RUNNABLE process. -/
def Busy (k : Kernel) (level : Nat) : Prop := ∃ i < NPROC, RunnableAt k level i

theorem searchQueue_eq (k : Kernel) (queue : FQ) :
    searchQueue k queue =
      (Rotation.search (fun i => isRunnable k (queue.holdingproc i)) NPROC queue.current).bind
        fun pos => (queue.holdingproc pos).map fun p => (pos, p) := by
  rw [searchQueue, Rotation.search, bind_map]
  rfl

theorem searchQueue_slot {queue : FQ} (found : searchQueue k queue = some (pos, p)) :
    Rotation.search (fun i => isRunnable k (queue.holdingproc i)) NPROC queue.current = some pos ∧
      queue.holdingproc pos = some p := by
  rw [searchQueue_eq] at found
  obtain ⟨i, search, held⟩ := bind_eq_some_iff.mp found
  obtain ⟨q, held, same⟩ := map_eq_some_iff.mp held
  cases same
  exact ⟨search, held⟩

theorem searchQueue_nothing {queue : FQ} (nothing : searchQueue k queue = none) :
    Rotation.search (fun i => isRunnable k (queue.holdingproc i)) NPROC queue.current = none := by
  cases search :
    Rotation.search (fun i => isRunnable k (queue.holdingproc i)) NPROC queue.current with
  | none => rfl
  | some pos =>
    have good := (Rotation.search_eq_some search).2.1
    rw [searchQueue_eq, search, bind_some, map_eq_none_iff] at nothing
    rw [nothing] at good
    cases good

/-- A RUNNABLE process of the level stands in a slot that the search looks at. -/
def InView (k : Kernel) (level : Nat) : Prop :=
  (k.queues level).total ≠ 0 ∧
    ∃ i < NPROC, RunnableAt k level i ∧ i ≠ ((k.queues level).current + (NPROC - 1)) % NPROC

theorem ahead_last {current i : Nat} (inside : i < NPROC) :
    Rotation.ahead NPROC (current % NPROC) i = NPROC - 1 ↔ i = (current + (NPROC - 1)) % NPROC := by
  constructor
  · intro last
    rw [← last]
    exact (Rotation.add_ahead inside).symm
  · intro same
    rw [same]
    exact Rotation.ahead_add (by decide)

/-- The search of a level finds something exactly if there is something in view. -/
theorem inView_iff (k : Kernel) (level : Nat) :
    InView k level ↔ (k.queues level).total ≠ 0 ∧ searchQueue k (k.queues level) ≠ none := by
  apply and_congr_right
  intro _
  constructor
  · intro ⟨i, inside, runnable, seen⟩ nothing
    have last := Rotation.search_eq_none (searchQueue_nothing nothing) i inside runnable
    exact seen ((ahead_last inside).mp last)
  intro something
  obtain ⟨⟨pos, p⟩, found⟩ := ne_none_iff_exists'.mp something
  obtain ⟨inside, runnable, near, _⟩ := Rotation.search_eq_some (searchQueue_slot found).1
  refine ⟨pos, inside, runnable, fun last => ?_⟩
  rw [(ahead_last inside).mpr last] at near
  exact Nat.lt_irrefl _ near

theorem InView.busy (inView : InView k level) : Busy k level := by
  obtain ⟨_, i, inside, runnable, _⟩ := inView
  exact ⟨i, inside, runnable⟩

/-- The slot taken is in the first level that has something in view. -/
theorem select_eq_some (found : select k levels = some (level, pos, p)) :
    ∃ before after, levels = before ++ level :: after ∧ (∀ l ∈ before, ¬ InView k l) ∧
      InView k level ∧ searchQueue k (k.queues level) = some (pos, p) := by
  induction levels with
  | nil => cases found
  | cons first rest ih =>
    have skip (blind : ¬ InView k first) (later : select k rest = some (level, pos, p)) :
        ∃ before after, first :: rest = before ++ level :: after ∧ (∀ l ∈ before, ¬ InView k l) ∧
          InView k level ∧ searchQueue k (k.queues level) = some (pos, p) := by
      obtain ⟨before, after, same, all, seen⟩ := ih later
      exact ⟨first :: before, after, by rw [same, List.cons_append],
        List.forall_mem_cons.mpr ⟨blind, all⟩, seen⟩
    unfold select at found
    split at found
    · rename_i empty
      exact skip (fun inView => inView.1 empty) found
    rename_i total
    split at found
    · rename_i nothing
      exact skip (fun inView => ((inView_iff k first).mp inView).2 nothing) found
    · rename_i i q search
      cases found
      refine ⟨[], rest, rfl, fun _ mem => (nomatch mem), (inView_iff k level).mpr ⟨total, ?_⟩,
        search⟩
      rw [search]
      exact nofun

theorem select_eq_none (nothing : select k levels = none) : ∀ l ∈ levels, ¬ InView k l := by
  induction levels with
  | nil => exact fun _ mem => (nomatch mem)
  | cons first rest ih =>
    unfold select at nothing
    split at nothing
    · rename_i empty
      exact List.forall_mem_cons.mpr ⟨fun inView => inView.1 empty, ih nothing⟩
    · split at nothing
      · rename_i missed
        refine List.forall_mem_cons.mpr ⟨fun inView => ?_, ih nothing⟩
        exact ((inView_iff k first).mp inView).2 missed
      · cases nothing

/-- The slot is one of the first level that has a RUNNABLE process; none is taken only if there is
no RUNNABLE process in the queues. -/
def Strict (k : Kernel) : Option (Nat × Nat × Nat) → Prop
  | some (level, pos, p) =>
    level < 3 ∧ pos < NPROC ∧ (k.queues level).holdingproc pos = some p ∧
      (k.proc p).state = .runnable ∧ ∀ l < level, ¬ Busy k l
  | none => ∀ l < 3, ¬ Busy k l

theorem split_levels {before after : List Nat} (same : [0, 1, 2] = before ++ level :: after) :
    level < 3 ∧ ∀ l, l ∈ before ↔ l < level := by
  match before with
  | [] =>
    cases same
    exact ⟨by decide, fun l => by simp⟩
  | [a] =>
    cases same
    exact ⟨by decide, fun l => by simp⟩
  | [a, b] =>
    cases same
    exact ⟨by decide, fun l => by simp; omega⟩
  | a :: b :: c :: rest =>
    have length := congrArg List.length same
    simp only [List.length_cons, List.length_append, List.length_nil] at length
    omega

/-- `exec_MLFQ` takes a slot of the first level with a RUNNABLE process, and none only without such
a process, exactly if in the first such level one stands in a slot other than the one just before
`current`, and its `total` is not 0. -/
theorem exec_MLFQ_strict (k : Kernel) :
    exec_MLFQ k = execSlot k (select k [0, 1, 2]) ∧
    (Strict k (select k [0, 1, 2]) ↔
      ∀ level < 3, Busy k level → (∀ l < level, ¬ Busy k l) → InView k level) := by
  refine ⟨execLevels_eq k _, ?_⟩
  cases chosen : select k [0, 1, 2] with
  | none =>
    have blind := select_eq_none chosen
    constructor
    · exact fun idle level low busy _ => absurd busy (idle level low)
    intro reached l low
    induction l using Nat.strong_induction_on with
    | _ l ih =>
      intro busy
      have inView := reached l low busy fun m lower => ih m lower (by omega)
      have mem : l ∈ [0, 1, 2] := by simp; omega
      exact blind l mem inView
  | some slot =>
    obtain ⟨level, pos, p⟩ := slot
    obtain ⟨before, after, same, blind, inView, found⟩ := select_eq_some chosen
    obtain ⟨low, earlier⟩ := split_levels same
    obtain ⟨_, held, runnable⟩ := searchQueue_some found
    have inside := (Rotation.search_eq_some (searchQueue_slot found).1).1
    constructor
    · rintro ⟨_, _, _, _, idle⟩ l _ busy first
      have order : l = level := by
        rcases Nat.lt_trichotomy l level with lower | same | higher
        · exact absurd busy (idle l lower)
        · exact same
        · exact absurd inView.busy (first level higher)
      rw [order]
      exact inView
    · intro reached
      refine ⟨low, inside, held, runnable, fun l lower => ?_⟩
      induction l using Nat.strong_induction_on with
      | _ l ih =>
        intro busy
        exact blind l ((earlier l).mpr lower) (reached l (by omega) busy fun m less =>
          ih m less (by omega))

/-- The first process, alone and RUNNABLE in queue 0, is found once and then not again. -/
theorem exec_MLFQ_misses :
    ((userinit (Kernel.boot smallMem) fun _ => 0).toOption.bind fun k => (exec_MLFQ k).toOption).map
        (fun (t, w) => (w, (exec_MLFQ t).toOption.map Prod.snd,
          isRunnable t ((t.queues 0).holdingproc 0))) =
      some (some 0, some none, true) := by decide +kernel

/-- The kernel after `n` calls of `exec_MLFQ` with nothing else in between. -/
def afterCalls (k : Kernel) : Nat → Option Kernel
  | 0 => some k
  | n + 1 => (afterCalls k n).bind fun t => (exec_MLFQ t).toOption.map Prod.fst

/-- The level and the slot that call number `n` takes. -/
def slotAt (k : Kernel) (n : Nat) : Option (Nat × Nat) :=
  (afterCalls k n).bind fun t => (select t [0, 1, 2]).map fun slot => (slot.1, slot.2.1)

theorem pick_eq (ran : pick k p = .ok (t, w)) :
    t.queues = k.queues ∧ ∀ q, (t.proc q).state = (k.proc q).state := by
  have loop : ∀ rounds i, pickLoop k p rounds i = .ok (t, w) →
      t.queues = k.queues ∧ ∀ q, (t.proc q).state = (k.proc q).state := by
    intro rounds
    induction rounds with
    | zero => intro i ends; cases ends
    | succ rounds ih =>
      intro i ends
      unfold pickLoop at ends
      dsimp only at ends
      split at ends
      · cases ends
        refine ⟨rfl, fun q => ?_⟩
        by_cases same : q = p
        · rw [same, setProc_proc, Function.update_self]
        · rw [setProc_proc, Function.update_of_ne same]
      · split at ends
        · exact ih _ ends
        · cases ends
          exact ⟨rfl, fun _ => rfl⟩
  unfold pick at ran
  split at ran
  · unfold pickthread at ran
    split at ran
    · cases ran
      exact ⟨rfl, fun _ => rfl⟩
    · exact loop _ _ ran
  · cases ran
    exact ⟨rfl, fun _ => rfl⟩

/-- What the calls do not change. -/
structure Unchanged (k t : Kernel) : Prop where
  state : ∀ q, (t.proc q).state = (k.proc q).state
  total : ∀ level, (t.queues level).total = (k.queues level).total
  held : ∀ level, (t.queues level).holdingproc = (k.queues level).holdingproc

theorem Unchanged.runnable (same : Unchanged k t) (held : Option Nat) :
    isRunnable t held = isRunnable k held := by
  cases held with
  | none => rfl
  | some p =>
    show ((t.proc p).state == .runnable) = ((k.proc p).state == .runnable)
    rw [same.state p]

/-- The position of a level after a slot is taken. -/
def moved (current level : Nat) : Option (Nat × Nat) → Nat
  | some (l, pos) => if level = l then pos + 1 else current
  | none => current

theorem exec_unchanged {chosen : Option Nat} (ran : exec_MLFQ k = .ok (t, chosen)) :
    Unchanged k t ∧ ∀ level, (t.queues level).current = moved (k.queues level).current level
      ((select k [0, 1, 2]).map fun slot => (slot.1, slot.2.1)) := by
  unfold exec_MLFQ at ran
  rw [execLevels_eq] at ran
  cases taken : select k [0, 1, 2] with
  | none =>
    rw [taken] at ran
    cases ran
    exact ⟨⟨fun _ => rfl, fun _ => rfl, fun _ => rfl⟩, fun _ => rfl⟩
  | some slot =>
    obtain ⟨l, pos, p⟩ := slot
    rw [taken] at ran
    obtain ⟨⟨u, w⟩, picked, ends⟩ := Outcome.bind_eq_ok.mp ran
    cases ends
    obtain ⟨queues, state⟩ := pick_eq picked
    have here : ∀ level, t.queues level = if level = l then
        { k.queues l with current := pos + 1 } else k.queues level := by
      intro level
      rw [queues, setQueue_queues, Function.update_apply]
    refine ⟨⟨state, fun level => ?_, fun level => ?_⟩, fun level => ?_⟩
    · rw [here level]
      split
      · rename_i same
        rw [same]
      · rfl
    · rw [here level]
      split
      · rename_i same
        rw [same]
      · rfl
    · rw [here level]
      simp only [map_some, moved]
      split
      · rfl
      · rfl

/-- The slot of one level that call number `n` takes. -/
def takenAt (k : Kernel) (level n : Nat) : Option Nat :=
  (slotAt k n).bind fun slot => if slot.1 = level then some slot.2 else none

theorem takenAt_eq_some {n : Nat} : takenAt k level n = some pos ↔
    slotAt k n = some (level, pos) := by
  unfold takenAt
  constructor
  · intro found
    obtain ⟨⟨l, i⟩, slot, here⟩ := bind_eq_some_iff.mp found
    obtain ⟨same, ends⟩ := ite_none_right_eq_some.mp here
    cases ends
    cases same
    exact slot
  · intro slot
    rw [slot, bind_some, if_pos rfl]

/-- The position of a level before call number `n`. -/
def positionAt (k : Kernel) (level : Nat) : Nat → Nat
  | 0 => (k.queues level).current
  | n + 1 => match takenAt k level n with
      | some pos => pos + 1
      | none => positionAt k level n

theorem afterCalls_unchanged {n : Nat} (run : afterCalls k n = some t) (level : Nat) :
    Unchanged k t ∧ (t.queues level).current = positionAt k level n := by
  induction n generalizing t with
  | zero =>
    cases run
    exact ⟨⟨fun _ => rfl, fun _ => rfl, fun _ => rfl⟩, rfl⟩
  | succ n ih =>
    obtain ⟨u, before, call⟩ := bind_eq_some_iff.mp run
    obtain ⟨chosen, ran⟩ := Outcome.toOption_map_fst_eq_some.mp call
    obtain ⟨same, position⟩ := ih before
    obtain ⟨unchanged, current⟩ := exec_unchanged ran
    refine ⟨⟨fun q => (unchanged.state q).trans (same.state q),
      fun l => (unchanged.total l).trans (same.total l),
      fun l => (unchanged.held l).trans (same.held l)⟩, ?_⟩
    rw [current level, position, positionAt]
    unfold takenAt slotAt
    rw [before, bind_some]
    cases (select u [0, 1, 2]).map fun slot => (slot.1, slot.2.1) with
    | none => rfl
    | some slot =>
      simp only [moved, bind_some, eq_comm]
      split
      · rfl
      · rfl

/-- The turn of a level is a search from its position. -/
theorem takenAt_search {n : Nat} (taken : takenAt k level n = some pos) :
    Rotation.search (fun i => isRunnable k ((k.queues level).holdingproc i)) NPROC
      (positionAt k level n) = some pos := by
  obtain ⟨t, run, selected⟩ := bind_eq_some_iff.mp (takenAt_eq_some.mp taken)
  obtain ⟨⟨l, i, p⟩, slot, ends⟩ := map_eq_some_iff.mp selected
  obtain ⟨rfl, rfl⟩ := Prod.mk.inj ends
  obtain ⟨_, _, _, _, _, found⟩ := select_eq_some slot
  obtain ⟨unchanged, position⟩ := afterCalls_unchanged run l
  have search := (searchQueue_slot found).1
  rw [position] at search
  rw [← search]
  congr 1
  funext i
  rw [unchanged.runnable, unchanged.held l]

/-- No RUNNABLE slot of a level is taken twice before every other RUNNABLE slot of that level has
been taken: between two calls that take a slot there is one that takes the other, whatever the
positions at the start. -/
theorem round_robin (k : Kernel) {i j level pos other : Nat} (later : i < j)
    (first : slotAt k i = some (level, pos)) (again : slotAt k j = some (level, pos))
    (inside : other < NPROC) (runnable : RunnableAt k level other) (apart : other ≠ pos) :
    ∃ n, i < n ∧ n < j ∧ slotAt k n = some (level, other) := by
  have moves : ∀ n p, takenAt k level n = some p →
      Rotation.search (fun i => isRunnable k ((k.queues level).holdingproc i)) NPROC
        (positionAt k level n) = some p ∧ positionAt k level (n + 1) = p + 1 := by
    intro n p taken
    refine ⟨takenAt_search taken, ?_⟩
    rw [positionAt, taken]
  have rests : ∀ n, takenAt k level n = none →
      positionAt k level (n + 1) = positionAt k level n := by
    intro n nothing
    rw [positionAt, nothing]
  obtain ⟨n, after, before, taken⟩ := Rotation.taken_between moves rests
    (takenAt_eq_some.mpr first) (takenAt_eq_some.mpr again) later inside runnable apart
  exact ⟨n, after, before, takenAt_eq_some.mp taken⟩

theorem round_robin_two : ∃ k, slotAt k 0 = some (0, 0) ∧ slotAt k 2 = some (0, 0) ∧
    RunnableAt k 0 1 ∧ ∃ n, 0 < n ∧ n < 2 ∧ slotAt k n = some (0, 1) := by
  have runs : (((userinit (Kernel.boot smallMem) fun _ => 0).toOption.bind fun k =>
      Run.exec Queue.step k [.dispatch 0, .fork 0, .yield 0]).map fun k => decide
        (slotAt k 0 = some (0, 0) ∧ slotAt k 2 = some (0, 0) ∧
          isRunnable k ((k.queues 0).holdingproc 1) = true)) = some true := by decide +kernel
  obtain ⟨k, _, facts⟩ := map_eq_some_iff.mp runs
  obtain ⟨first, again, runnable⟩ := of_decide_eq_true facts
  exact ⟨k, first, again, runnable,
      round_robin k (by decide) first again (by decide) runnable (by decide)⟩

/-- What calls of `pickthread` one after the other return. -/
def picks (master : Nat) : Nat → Kernel → Except Failure (Kernel × List Nat)
  | 0, k => .ok (k, [])
  | n + 1, k => do
    let first ← pickthread k master
    let rest ← picks master n first.1
    .ok (rest.1, first.2 :: rest.2)

/-- The RUNNABLE members of a group, one for each place. -/
def members (k : Kernel) (master : Nat) : List Nat :=
  (List.range (NTHRE + 1)).filterMap fun i => (memberAt k master i).filter fun w =>
    isRunnable k (some w)

theorem candidates_members (k : Kernel) (master : Nat) :
    ((candidates k master).map Prod.snd).Perm (members k master) := by
  rw [candidates, List.map_filterMap]
  simp only [candidate, map_map, Function.comp_def, map_id']
  exact Rotation.ring_perm.filterMap _

/-- The member that was taken comes last now. -/
theorem candidates_turn {i : Nat} {rest : List (Nat × Nat)}
    (eq : candidates k master = (i, w) :: rest) :
    candidates (k.setProc master { k.proc master with curthread := i }) master = rest ++
      [(i, w)] := by
  have same : ∀ u, Looked k u → candidate u master = candidate k master := by
    rintro _ ⟨_, _, rfl, _⟩
    rfl
  have small : i ≤ NTHRE := (mem_candidates.mp (eq ▸ List.mem_cons_self)).1
  obtain ⟨before, j, after, split, skipped, found, rfl⟩ := List.filterMap_eq_cons_iff.mp eq
  obtain ⟨rfl, _⟩ := candidate_eq_some.mp found
  rw [candidates, same _ (looked_curthread small), setProc_proc, Function.update_self,
      Rotation.ring_of_split split,
    List.filterMap_append, List.filterMap_append, List.filterMap_eq_nil_iff.mpr skipped,
      List.nil_append,
    List.filterMap_cons_some found, List.filterMap_nil]

theorem picks_eq {n : Nat} (low : (k.proc master).curthread ≤ NTHRE)
    (group : (k.proc master).threadcnt ≠ 0) (enough : n ≤ (candidates k master).length) :
    ∃ c ≤ NTHRE, picks master n k = .ok (k.setProc master { k.proc master with curthread := c },
      ((candidates k master).take n).map Prod.snd) := by
  induction n generalizing k with
  | zero =>
    refine ⟨_, low, ?_⟩
    rw [Kernel.setProc, Function.update_eq_self]
    rfl
  | succ n ih =>
    obtain ⟨⟨i, w⟩, rest, eq⟩ :=
      List.exists_cons_of_length_pos (Nat.lt_of_lt_of_le (Nat.succ_pos n) enough)
    rw [eq, List.length_cons, Nat.succ_le_succ_iff] at enough
    have small : i ≤ NTHRE := (mem_candidates.mp (eq ▸ List.mem_cons_self)).1
    have own : (k.setProc master { k.proc master with curthread := i }).proc master =
        { k.proc master with curthread := i } := Function.update_self ..
    have turn := candidates_turn eq
    have later := @ih (k.setProc master { k.proc master with curthread := i })
    rw [own, turn, List.length_append, List.take_append_of_le_length enough] at later
    obtain ⟨c, bound, later⟩ := later small group (Nat.le_succ_of_le enough)
    refine ⟨c, bound, ?_⟩
    rw [picks, pickthread_eq low group, eq, List.take_succ_cons, List.map_cons]
    show (picks master n (k.setProc master { k.proc master with curthread := i }) >>= _) = _
    rw [later, Kernel.setProc, setProc_proc, Function.update_idem]
    rfl

/-- In as many calls as there are RUNNABLE members each of them has one turn, and `curthread` is
always a place of the ring. -/
theorem pickthread_rotates (group : 0 < (k.proc master).threadcnt)
    (low : (k.proc master).curthread ≤ NTHRE) :
    (∀ n ≤ (members k master).length, ∃ c ≤ NTHRE, ∃ order,
      picks master n k = .ok (k.setProc master { k.proc master with curthread := c }, order)) ∧
    ∃ t order, picks master (members k master).length k = .ok (t, order) ∧
      order.Perm (members k master) ∧
      ((members k master).Nodup → ∀ w ∈ members k master, order.count w = 1) := by
  have perm := candidates_members k master
  have length : (members k master).length = (candidates k master).length := by
    rw [← perm.length_eq, List.length_map]
  refine ⟨fun n enough => ?_, ?_⟩
  · obtain ⟨c, bound, run⟩ := picks_eq low group.ne' (length ▸ enough)
    exact ⟨c, bound, _, run⟩
  · obtain ⟨c, _, run⟩ := picks_eq low group.ne' (Nat.le_refl _)
    rw [length, run, List.take_length]
    refine ⟨_, _, rfl, perm, fun distinct w member => ?_⟩
    rw [perm.count_eq]
    exact List.count_eq_one_of_mem distinct member

/-- A master with one worker, both RUNNABLE. -/
def pair : Kernel :=
  let k := Kernel.boot smallMem
  (k.setProc 1 { k.proc 1 with state := .runnable }).setProc 0
    { k.proc 0 with
      state := .runnable, threadcnt := 1, workerthread := fun i => if i = 3 then some 1 else none }

theorem pickthread_rotates_pair :
    ∃ t order, picks 0 2 pair = .ok (t, order) ∧ order.count 0 = 1 ∧ order.count 1 = 1 := by
  have both : members pair 0 = [1, 0] := by decide +kernel
  obtain ⟨_, t, order, run, _, once⟩ := @pickthread_rotates pair 0 (by decide) (by decide)
  rw [both] at run once
  exact ⟨t, order, run, once (by decide) 0 (by decide), once (by decide) 1 (by decide)⟩

end Xv6.Process.Dispatch
