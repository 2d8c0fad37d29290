import Xv6.Lib.Regions
import Xv6.Process.Sizes

/- The address space of one group of threads: which pages are stacks of threads, stacks that were
given back, and memory of the process. -/
namespace Xv6.Process.Stacks

open Function Calls Outcome Regions Vm Option

/-- Where a master notes a stack: one that was given back, and that of a worker. -/
inductive Place where
  | given (i : Nat)
  | worker (j : Nat)
deriving DecidableEq

def places : Finset Place :=
  (Finset.range NTHRE).image .given ∪ (Finset.range NTHRE).image .worker

/-- The first page of a stack that starts at address `start`. -/
def startPage (start : Nat) : Option Nat := if start = 0 then none else some (start / PGSIZE)

/-- The first page of a stack that ends at address `sz`. -/
def endPage (sz : Nat) : Option Nat := if sz = 0 then none else some (sz / PGSIZE - 2)

/-- The first page of the stack that is noted at a place. -/
def stackAt (k : Kernel) (master : Nat) : Place → Option Nat
  | .given i => if i < NTHRE then startPage ((k.proc master).freeusrspace i) else none
  | .worker j => ((k.proc master).workerthread j).bind fun w => endPage (k.proc w).sz

/-- The entry of page `v` in the page table of `p`. -/
def entryOf (k : Kernel) (p v : Nat) : Option Pte :=
  ((k.proc p).pgdir.bind k.pgdirs).bind fun dir => dir.entry v

variable {k t : Kernel} {master p q np : Nat} {heap : Nat → Bool}
    {j i sz w : Nat} {new : Proc} {dir dir' : Pgdir} {mem mem' : Mem}

theorem entryOf_eq {d : Nat} (pgdir : (k.proc p).pgdir = some d)
    (present : k.pgdirs d = some dir) (v : Nat) : entryOf k p v = dir.entry v := by
  unfold entryOf
  rw [pgdir, bind_some, present, bind_some]

/-- What is noted and what is mapped in the group of `master`. -/
structure Layout (k : Kernel) (master : Nat) (heap : Nat → Bool) : Prop where
  size : 0 < (k.proc master).sz ∧ (k.proc master).sz < KERNBASE
  apart : Apart 2 (pages (k.proc master).sz) (stackAt k master)
  given : ∀ i < NTHRE, (k.proc master).freeusrspace i % PGSIZE = 0
  worker : ∀ j w, (k.proc master).workerthread j = some w →
    (k.proc w).sz = 0 ∧ (k.proc w).state = .embryo ∨
      (k.proc w).sz % PGSIZE = 0 ∧ 2 * PGSIZE < (k.proc w).sz
  mapped : ∀ v, (entryOf k master v).isSome ↔
    v < pages (k.proc master).sz ∧ ∀ i, ¬ Has 2 (stackAt k master) (.given i) v
  heap : ∀ v, heap v = true ↔
    v < pages (k.proc master).sz ∧ ∀ place, ¬ Has 2 (stackAt k master) place v
  room : used places (stackAt k master) ≤ NTHRE

theorem stackAt_given (k : Kernel) (master i : Nat) : stackAt k master (.given i) =
    if i < NTHRE then startPage ((k.proc master).freeusrspace i) else none := rfl

theorem stackAt_worker (k : Kernel) (master j : Nat) : stackAt k master (.worker j) =
    ((k.proc master).workerthread j).bind fun w => endPage (k.proc w).sz := rfl

theorem stackAt_congr (given : (t.proc master).freeusrspace = (k.proc master).freeusrspace)
    (lists : (t.proc master).workerthread = (k.proc master).workerthread)
    (sizes : ∀ j w, (k.proc master).workerthread j = some w → (t.proc w).sz = (k.proc w).sz) :
    stackAt t master = stackAt k master := by
  funext place
  cases place with
  | given i => rw [stackAt_given, stackAt_given, given]
  | worker j =>
    rw [stackAt_worker, stackAt_worker, lists]
    cases listed : (k.proc master).workerthread j with
    | none => rfl
    | some w => rw [bind_some, bind_some, sizes j w listed]

/-- A worker has a stack of two pages, not at address 0, or is a slot for which there was no
memory. -/
def Placed (w : Proc) : Prop :=
  w.sz = 0 ∧ w.state = .embryo ∨ w.sz % PGSIZE = 0 ∧ 2 * PGSIZE < w.sz

section

variable (layout : Layout k master heap) (size : (t.proc master).sz = (k.proc master).sz)
    (given : (t.proc master).freeusrspace = (k.proc master).freeusrspace)
include layout size given

/-- The same stacks are noted, and the same pages are mapped. -/
theorem Layout.same (worker : ∀ j w, (t.proc master).workerthread j = some w → Placed (t.proc w))
    (noted : stackAt t master = stackAt k master)
    (entries : ∀ v, entryOf t master v = entryOf k master v) :
    Layout t master heap := by
  refine ⟨?_, ?_, ?_, worker, ?_, ?_, ?_⟩
  · rw [size]
    exact layout.size
  · rw [noted, size]
    exact layout.apart
  · rw [given]
    exact layout.given
  · intro v
    rw [entries v, noted, size]
    exact layout.mapped v
  · intro v
    rw [noted, size]
    exact layout.heap v
  · rw [noted]
    exact layout.room

theorem Layout.keep (lists : (t.proc master).workerthread = (k.proc master).workerthread)
    (sizes : ∀ j w, (k.proc master).workerthread j = some w → (t.proc w).sz = (k.proc w).sz ∧
      ((k.proc w).state = .embryo → (t.proc w).state = .embryo))
    (entries : ∀ v, entryOf t master v = entryOf k master v) : Layout t master heap := by
  apply layout.same size given _ (stackAt_congr given lists fun j w listed =>
      (sizes j w listed).1) entries
  intro j w listed
  rw [lists] at listed
  obtain ⟨sz, embryo⟩ := sizes j w listed
  unfold Placed
  rw [sz]
  exact (layout.worker j w listed).imp (fun both => ⟨both.1, embryo both.2⟩) id

end

/-- What `thread_create` does to the group: nothing, when there is no slot or no kernel stack, and
else it lists a new thread, with a stack or without. -/
theorem thread_create_space {arg : Nat} {made : Option Nat} (grouped : Grouped k.proc)
    (live : Live (k.proc p).state) (ran : thread_create k p arg = .ok (t, made)) :
    t.pgdirs = k.pgdirs ∧ (∀ q, (k.proc q).state ≠ .unused → t.proc q = k.proc q) ∨
    ∃ np j d dir mem mem' dir' sz new, (k.proc np).state = .unused ∧ j < NTHRE ∧
      (k.proc (k.masterOf p)).workerthread j = none ∧ (k.proc (k.masterOf p)).pgdir = some d ∧
      k.pgdirs d = some dir ∧ allocuvm mem dir (stackStart (k.proc (k.masterOf p)))
        (stackStart (k.proc (k.masterOf p)) + 2 * PGSIZE) = .ok (mem', dir', sz) ∧
      new.master = some (k.masterOf p) ∧ new.sz = sz ∧
      (sz = 0 ∧ new.state = .embryo ∧ t.pgdirs = update k.pgdirs d (some dir') ∧
        t.proc = update (update k.proc (k.masterOf p)
          (enlist (k.proc (k.masterOf p)) j np)) np new ∨
      sz ≠ 0 ∧ ∃ dir'', clearpteu dir' ((sz - 2 * PGSIZE) / PGSIZE) = .ok dir'' ∧
        t.pgdirs = update k.pgdirs d (some dir'') ∧
        t.proc = update (update k.proc (k.masterOf p)
          (lend (enlist (k.proc (k.masterOf p)) j np) sz)) np new) := by
  cases created_of_thread_create (grouped.masterOf live.settled).1.1 ran with
  | noSlot _ _ same =>
    rw [same]
    exact .inl ⟨rfl, fun _ _ => rfl⟩
  | noPage np found _ _ same =>
    refine .inl ⟨by rw [same]; rfl, fun q inUse => ?_⟩
    have other : q ≠ np := fun here => inUse (here ▸ (unusedSlot_spec found).2)
    rw [same, setProc_of_ne other, claim_proc, update_of_ne other]
  |
      listed np j d frame sz mem mem' dir dir' dir'' top state found _ inside free pgdir
      present grown stack _
      pgdirs _ proc =>
      refine .inr ⟨np, j, d, dir, mem, mem', dir', sz, hired k (k.masterOf p) np frame j sz state,
        (unusedSlot_spec found).2, inside, free, pgdir, present, grown, rfl, rfl, ?_⟩
      rcases stack with ⟨zero, rfl, rfl, embryo, _⟩ | ⟨positive, guarded, rfl, _⟩
      · exact .inl ⟨zero, embryo, pgdirs, proc⟩
      · exact .inr ⟨positive, dir'', guarded, pgdirs, proc⟩

/-- The pages of a stack that was mapped, with its guard page. -/
theorem stack_mapped {start : Nat} {dir'' : Pgdir}
    (aligned : start % PGSIZE = 0)
    (grown : allocuvm mem dir start (start + 2 * PGSIZE) = .ok (mem', dir', sz)) (positive : sz ≠ 0)
    (guarded : clearpteu dir' ((sz - 2 * PGSIZE) / PGSIZE) = .ok dir'') :
    sz = start + 2 * PGSIZE ∧ sz < KERNBASE ∧
    (∀ v, start / PGSIZE ≤ v → v < start / PGSIZE + 2 → dir.entry v = none ∧
      (dir''.entry v).isSome) ∧
    ∀ v, ¬ (start / PGSIZE ≤ v ∧ v < start / PGSIZE + 2) → dir''.entry v = dir.entry v := by
  have first : pages start = start / PGSIZE := by
    unfold pages PGSIZE at *
    omega
  have last : pages (start + 2 * PGSIZE) = start / PGSIZE + 2 := by
    unfold pages PGSIZE at *
    omega
  have guard := (clearpteu_spec (m := mem) guarded).2
  rcases (allocuvm_spec grown).2 with ⟨isNew, _, bound, new, old⟩ | ⟨_, less, _⟩ | ⟨zero, _⟩
  · rw [first, last] at new old
    have page : (sz - 2 * PGSIZE) / PGSIZE = start / PGSIZE := by
      rw [isNew, Nat.add_sub_cancel]
    rw [page] at guard
    refine ⟨isNew, isNew ▸ bound, fun v lower upper => ?_, fun v outside => ?_⟩
    · obtain ⟨before, frame, after⟩ := new v lower upper
      refine ⟨before, ?_⟩
      rw [guard v]
      split
      · rename_i here
        rw [← here, after]
        rfl
      · rw [after]
        rfl
    · rw [guard v, if_neg (by omega)]
      exact old v (by omega)
  · omega
  · exact absurd zero positive

/-- Without memory nothing is mapped, and nothing was. -/
theorem stack_failed {start : Nat} (aligned : start % PGSIZE = 0)
    (failed : allocuvm mem dir start (start + 2 * PGSIZE) = .ok (mem', dir', 0))
    (unmapped : ∀ v, start / PGSIZE ≤ v → v < start / PGSIZE + 2 → dir.entry v = none) (v : Nat) :
    dir'.entry v = dir.entry v := by
  have first : pages start = start / PGSIZE := by
    unfold pages PGSIZE at *
    omega
  have last : pages (start + 2 * PGSIZE) = start / PGSIZE + 2 := by
    unfold pages PGSIZE at *
    omega
  rcases (allocuvm_spec failed).2 with ⟨impossible, _⟩ | ⟨_, less, _⟩ | ⟨_, same | ⟨_, same⟩⟩
  · unfold PGSIZE at impossible
    omega
  · omega
  · exact same v
  · rw [same v, first, last]
    split
    · rename_i inside
      rw [unmapped v inside.1 inside.2]
    · rfl

theorem endPage_stack (start : Nat) : endPage (start + 2 * PGSIZE) = some (start / PGSIZE) := by
  unfold endPage
  rw [if_neg (by unfold PGSIZE; omega)]
  congr 1
  unfold PGSIZE
  omega

/-- `np` becomes the worker `new` at index `j` of `master`, which is `head` then. -/
structure Hired (k t : Kernel) (master np j : Nat) (head new : Proc) : Prop where
  top : t.proc master = head
  thread : t.proc np = new
  others : ∀ q, q ≠ np → q ≠ master → t.proc q = k.proc q
  lists : head.workerthread = update (k.proc master).workerthread j (some np)

theorem hired_of_proc {head : Proc} (different : np ≠ master)
    (proc : t.proc = update (update k.proc master head) np new)
    (lists : head.workerthread = update (k.proc master).workerthread j (some np)) :
    Hired k t master np j head new := by
  refine ⟨?_, ?_, ?_, lists⟩
  · rw [proc, update_of_ne different.symm, update_self]
  · rw [proc, update_self]
  · intro q other notMaster
    rw [proc, update_of_ne other, update_of_ne notMaster]

section

variable {j : Nat} {head new : Proc} (grouped : Grouped k.proc)
    (unused : (k.proc np).state = .unused) (hired : Hired k t master np j head new)
include grouped unused hired

/-- The workers of before are not touched. -/
theorem Hired.worker (listed : (k.proc master).workerthread i = some w) :
    t.proc w = k.proc w := by
  refine hired.others w ?_ (grouped.ne_master listed)
  intro here
  rw [here] at listed
  exact (grouped.list master i np listed).2.1 unused

theorem stackAt_enlist (i : Nat) :
    stackAt t master (.worker i) = if i = j then endPage new.sz
      else stackAt k master (.worker i) := by
  rw [stackAt_worker, stackAt_worker, hired.top, hired.lists, update_apply]
  split
  · rw [bind_some, hired.thread]
  cases listed : (k.proc master).workerthread i with
  | none => rfl
  | some w => rw [bind_some, bind_some, hired.worker grouped unused listed]

/-- Workers keep what they have when another one is listed. -/
theorem Layout.placed (layout : Layout k master heap) (own : Placed new) (i w : Nat)
    (listed : (t.proc master).workerthread i = some w) : Placed (t.proc w) := by
  rw [hired.top, hired.lists, update_apply] at listed
  split at listed
  · cases listed
    rw [hired.thread]
    exact own
  rw [hired.worker grouped unused listed]
  exact layout.worker i w listed

end

section

variable (layout : Layout k master heap) (grouped : Grouped k.proc)
    (unused : (k.proc np).state = .unused)
include layout grouped unused

/-- A thread is listed for whose stack there was no memory. -/
theorem Layout.unstacked (different : np ≠ master)
    (free : (k.proc master).workerthread j = none) (zero : new.sz = 0)
    (embryo : new.state = .embryo)
    (proc : t.proc = update (update k.proc master (enlist (k.proc master) j np)) np new)
    (entries : ∀ v, entryOf t master v = entryOf k master v) : Layout t master heap := by
  have hired := hired_of_proc different proc rfl
  apply layout.same
  · rw [hired.top]
    rfl
  · rw [hired.top]
    rfl
  · exact layout.placed grouped unused hired (.inl ⟨zero, embryo⟩)
  · funext place
    cases place with
    | given i =>
      rw [stackAt_given, stackAt_given, hired.top]
      rfl
    | worker i =>
      rw [stackAt_enlist grouped unused hired, zero]
      split
      · rename_i here
        rw [here, stackAt_worker, free]
        rfl
      · rfl
  · exact entries

end

theorem given_mem_places : .given i ∈ places ↔ i < NTHRE := by simp [places]

theorem worker_mem_places : .worker j ∈ places ↔ j < NTHRE := by simp [places]

/-- All places are for stacks of workers, when no stack was given back. -/
theorem used_workers {base : Place → Option Nat} (empty : ∀ i, base (.given i) = none) :
    used places base ≤ NTHRE := by
  have inside :
      (places.filter fun place => (base place).isSome) ⊆ (Finset.range NTHRE).image .worker := by
    intro place member
    rw [Finset.mem_filter] at member
    obtain ⟨member, held⟩ := member
    cases place with
    | given i =>
      rw [empty i] at held
      cases held
    | worker j =>
      exact Finset.mem_image_of_mem _ (Finset.mem_range.mpr (worker_mem_places.mp member))
  calc used places base ≤ ((Finset.range NTHRE).image Place.worker).card :=
    Finset.card_le_card inside
    _ ≤ (Finset.range NTHRE).card := Finset.card_image_le
    _ = NTHRE := Finset.card_range NTHRE

section

variable (layout : Layout k master heap)
include layout

/-- A stack is noted at another place. If that is with the stacks that were given back, its pages
are unmapped, and else they are mapped. -/
theorem Layout.moved {source target : Place} {a : Nat}
    (size : (t.proc master).sz = (k.proc master).sz)
    (noted : stackAt t master = move (stackAt k master) source target)
    (held : stackAt k master source = some a) (empty : stackAt k master target = none)
    (inside : source ∈ places ∧ target ∈ places)
    (given : ∀ i < NTHRE, (t.proc master).freeusrspace i % PGSIZE = 0)
    (worker : ∀ j w, (t.proc master).workerthread j = some w → Placed (t.proc w))
    (stack : ∀ v, Has 2 (stackAt k master) source v →
      ((entryOf t master v).isSome ↔ ∀ i, target ≠ .given i))
    (entries : ∀ v, ¬ Has 2 (stackAt k master) source v → entryOf t master v = entryOf k master v) :
    Layout t master heap := by
  refine ⟨?_, ?_, given, worker, ?_, ?_, ?_⟩
  · rw [size]
    exact layout.size
  · rw [noted, size]
    exact layout.apart.move
  · intro v
    rw [noted, size]
    by_cases here : Has 2 (stackAt k master) source v
    · rw [stack v here]
      constructor
      · refine fun worker => ⟨layout.apart.lt_top here, fun i has => ?_⟩
        rcases has_move.mp has with ⟨same, _⟩ | ⟨_, other, has⟩
        · exact worker i same.symm
        · exact other (layout.apart.unique has here)
      · exact fun outside i same => outside.2 i (has_move.mpr (.inl ⟨same.symm, here⟩))
    rw [entries v here, layout.mapped v]
    refine and_congr_right fun _ => forall_congr' fun i => not_congr ?_
    rw [has_move]
    constructor
    · refine fun has => .inr ⟨fun same => ?_, fun same => here (same ▸ has), has⟩
      exact not_has_none empty (same ▸ has)
    · rintro (⟨_, has⟩ | ⟨_, _, has⟩)
      · exact absurd has here
      · exact has
  · intro v
    rw [noted, size, outside_move empty]
    exact layout.heap v
  · rw [noted, used_move inside.1 inside.2 held empty]
    exact layout.room

/-- A thread gets a stack that was given back. -/
theorem Layout.lent (grouped : Grouped k.proc)
    (unused : (k.proc np).state = .unused) (different : np ≠ master) (inside : j < NTHRE)
    (free : (k.proc master).workerthread j = none) (index : i < NTHRE)
    (noted : (k.proc master).freeusrspace i ≠ 0)
    (size : new.sz = (k.proc master).freeusrspace i + 2 * PGSIZE)
    (proc : t.proc = update (update k.proc master { enlist (k.proc master) j np with
      freeusrspace := update (k.proc master).freeusrspace i 0 }) np new)
    (stack : ∀ v, Has 2 (stackAt k master) (.given i) v → (entryOf t master v).isSome)
    (entries : ∀ v, ¬ Has 2 (stackAt k master) (.given i) v →
      entryOf t master v = entryOf k master v) :
    Layout t master heap := by
  have hired := hired_of_proc different proc rfl
  have held : stackAt k master (.given i) = some ((k.proc master).freeusrspace i / PGSIZE) := by
    rw [stackAt_given, if_pos index]
    exact if_neg noted
  have empty : stackAt k master (.worker j) = none := by
    rw [stackAt_worker, free]
    rfl
  have aligned := layout.given i index
  apply layout.moved (by rw [hired.top]; rfl) _ held empty
    ⟨given_mem_places.mpr index, worker_mem_places.mpr inside⟩
  · intro i' index'
    rw [hired.top]
    show update (k.proc master).freeusrspace i 0 i' % PGSIZE = 0
    rw [update_apply]
    split
    · rfl
    · exact layout.given i' index'
  · apply layout.placed grouped unused hired (.inr _)
    rw [size]
    unfold PGSIZE at *
    omega
  · exact fun v has => iff_of_true (stack v has) fun _ => Place.noConfusion
  · exact entries
  · funext place
    unfold move
    cases place with
    | given i' =>
      rw [update_of_ne Place.noConfusion, update_apply, stackAt_given, stackAt_given, hired.top]
      show (if i' < NTHRE then startPage (update (k.proc master).freeusrspace i 0 i') else none) = _
      rw [update_apply]
      simp only [Place.given.injEq]
      by_cases here : i' = i
      · rw [if_pos here, if_pos here]
        exact ite_self _
      · rw [if_neg here, if_neg here]
    | worker i' =>
      rw [stackAt_enlist grouped unused hired, size, endPage_stack, update_apply, held,
        update_of_ne Place.noConfusion]
      simp only [Place.worker.injEq]

/-- A thread gets a stack at the top of the address space. -/
theorem Layout.pushed (grouped : Grouped k.proc) (unused : (k.proc np).state = .unused)
    (different : np ≠ master) (free : (k.proc master).workerthread j = none)
    (fresh : ∀ i < NTHRE, (k.proc master).freeusrspace i = 0)
    (aligned : (k.proc master).sz % PGSIZE = 0) (bound : (k.proc master).sz + 2 * PGSIZE < KERNBASE)
    (size : new.sz = (k.proc master).sz + 2 * PGSIZE)
    (proc : t.proc = update (update k.proc master { enlist (k.proc master) j np with
      sz := (k.proc master).sz + 2 * PGSIZE }) np new)
    (stack : ∀ v, (k.proc master).sz / PGSIZE ≤ v → v < (k.proc master).sz / PGSIZE + 2 →
      (entryOf t master v).isSome)
    (entries : ∀ v, ¬ ((k.proc master).sz / PGSIZE ≤ v ∧ v < (k.proc master).sz / PGSIZE + 2) →
      entryOf t master v = entryOf k master v) : Layout t master heap := by
  have hired := hired_of_proc different proc rfl
  have size' : (t.proc master).sz = (k.proc master).sz + 2 * PGSIZE := by
    rw [hired.top]
  have first : (k.proc master).sz / PGSIZE = pages (k.proc master).sz := by
    unfold pages PGSIZE at *
    omega
  have last : pages ((k.proc master).sz + 2 * PGSIZE) = pages (k.proc master).sz + 2 := by
    unfold pages PGSIZE at *
    omega
  rw [first] at stack entries
  have empty : ∀ i, stackAt k master (.given i) = none := by
    intro i
    rw [stackAt_given]
    split
    · rename_i index
      rw [fresh i index]
      rfl
    · rfl
  have pushed : stackAt t master =
      update (stackAt k master) (.worker j) (some (pages (k.proc master).sz)) := by
    funext place
    cases place with
    | given i =>
      rw [update_of_ne Place.noConfusion, stackAt_given, stackAt_given, hired.top]
      rfl
    | worker i =>
      rw [stackAt_enlist grouped unused hired, size, endPage_stack, update_apply, first]
      simp only [Place.worker.injEq]
  have given : ∀ i, stackAt t master (.given i) = none := by
    intro i
    rw [pushed, update_of_ne Place.noConfusion]
    exact empty i
  have none : ∀ i v, ¬ Has 2 (stackAt t master) (.given i) v :=
    fun i v => not_has_none (given i)
  refine ⟨?_, ?_, ?_, ?_, ?_, ?_, ?_⟩
  · rw [size']
    exact ⟨Nat.lt_of_lt_of_le layout.size.1 (Nat.le_add_right _ _), bound⟩
  · rw [pushed, size', last]
    exact layout.apart.push
  · intro i index
    rw [hired.top]
    show (k.proc master).freeusrspace i % PGSIZE = 0
    exact layout.given i index
  · apply layout.placed grouped unused hired (.inr _)
    have positive := layout.size.1
    rw [size]
    unfold PGSIZE at *
    omega
  · intro v
    rw [size', last]
    by_cases here : pages (k.proc master).sz ≤ v ∧ v < pages (k.proc master).sz + 2
    · exact ⟨fun _ => ⟨here.2, fun i => none i v⟩, fun _ => stack v here.1 here.2⟩
    rw [entries v here, layout.mapped v]
    constructor
    · rintro ⟨below, _⟩
      exact ⟨by omega, fun i => none i v⟩
    · rintro ⟨below, _⟩
      exact ⟨by omega, fun i => not_has_none (empty i)⟩
  · intro v
    rw [size', last, layout.heap v]
    constructor
    · rintro ⟨below, outside⟩
      refine ⟨by omega, fun place inside => ?_⟩
      rw [pushed] at inside
      rcases has_push.mp inside with ⟨_, lower, _⟩ | ⟨_, inside⟩
      · omega
      · exact outside place inside
    · rintro ⟨below, outside⟩
      rw [pushed] at outside
      have notNew : ¬ (pages (k.proc master).sz ≤ v ∧ v < pages (k.proc master).sz + 2) :=
        fun inside => outside (.worker j) (has_push.mpr (.inl ⟨rfl, inside⟩))
      refine ⟨by omega, fun place inside => ?_⟩
      by_cases here : place = .worker j
      · rw [here] at inside
        refine not_has_none ?_ inside
        rw [stackAt_worker, free]
        rfl
      · exact outside place (has_push.mpr (.inr ⟨here, inside⟩))
  · exact used_workers given

theorem Layout.stacked (listed : (k.proc master).workerthread j = some w)
    (zombie : (k.proc w).state = .zombie) :
    (k.proc w).sz % PGSIZE = 0 ∧ 2 * PGSIZE < (k.proc w).sz ∧
      stackAt k master (.worker j) = some ((k.proc w).sz / PGSIZE - 2) := by
  rcases layout.worker j w listed with ⟨_, embryo⟩ | ⟨aligned, above⟩
  · rw [zombie] at embryo
    cases embryo
  · refine ⟨aligned, above, ?_⟩
    rw [stackAt_worker, listed]
    exact if_neg (by omega)

/-- A stack is given back, and its pages are unmapped. -/
theorem Layout.returned (grouped : Grouped k.proc)
    (listed : (k.proc master).workerthread (k.proc w).tindex = some w)
    (zombie : (k.proc w).state = .zombie) (inside : i < NTHRE)
    (free : (k.proc master).freeusrspace i = 0) (size : sz = (k.proc w).sz - 2 * PGSIZE)
    (proc : t.proc = update (update k.proc master { k.proc master with
        freeusrspace := update (k.proc master).freeusrspace i sz
        workerthread := update (k.proc master).workerthread (k.proc w).tindex none })
      w { k.proc w with state := .unused, kstack := none, killed := false })
    (stack : ∀ v, Has 2 (stackAt k master) (.worker (k.proc w).tindex) v →
      entryOf t master v = none)
    (entries : ∀ v, ¬ Has 2 (stackAt k master) (.worker (k.proc w).tindex) v →
      entryOf t master v = entryOf k master v) : Layout t master heap := by
  have different := grouped.ne_master listed
  have top := congrFun proc master
  rw [update_of_ne different.symm, update_self] at top
  have spaces : (t.proc master).freeusrspace = update (k.proc master).freeusrspace i sz := by
    rw [top]
  have lists : (t.proc master).workerthread =
      update (k.proc master).workerthread (k.proc w).tindex none := by
    rw [top]
  have others : ∀ q, q ≠ w → q ≠ master → t.proc q = k.proc q := by
    intro q other notMaster
    rw [proc, update_of_ne other, update_of_ne notMaster]
  have stays : ∀ j w', (t.proc master).workerthread j = some w' →
      j ≠ (k.proc w).tindex ∧ (k.proc master).workerthread j = some w' ∧ t.proc w' = k.proc w' := by
    intro j w' listed'
    rw [lists, update_apply] at listed'
    split at listed'
    · cases listed'
    · rename_i other
      refine ⟨other, listed', others w' ?_ (grouped.ne_master listed')⟩
      intro same
      rw [same] at listed'
      exact other (grouped.list master j w listed').2.2.2.symm
  obtain ⟨aligned, above, held⟩ := layout.stacked listed zombie
  have empty : stackAt k master (.given i) = none := by
    rw [stackAt_given, if_pos inside, free]
    rfl
  have start : startPage sz = some ((k.proc w).sz / PGSIZE - 2) := by
    unfold startPage
    rw [if_neg (by omega), size]
    congr 1
    unfold PGSIZE at *
    omega
  have moved : stackAt t master = move (stackAt k master) (.worker (k.proc w).tindex)
      (.given i) := by
    funext place
    unfold move
    cases place with
    | given i' =>
      rw [update_apply, stackAt_given, spaces, update_apply]
      by_cases here : i' = i
      · rw [if_pos here, if_pos (congrArg _ here), here, if_pos inside, start, held]
      · rw [if_neg here, if_neg (fun same => here (Place.given.inj same)),
          update_of_ne Place.noConfusion]
        rfl
    | worker j =>
      rw [update_of_ne Place.noConfusion, update_apply, stackAt_worker]
      by_cases here : j = (k.proc w).tindex
      · rw [if_pos (congrArg _ here), lists, here, update_self]
        rfl
      rw [if_neg (fun same => here (Place.worker.inj same)), stackAt_worker]
      cases listed' : (t.proc master).workerthread j with
      | none =>
        rw [lists, update_of_ne here] at listed'
        rw [listed']
        rfl
      | some w' =>
        obtain ⟨_, before, same⟩ := stays j w' listed'
        rw [before, bind_some, bind_some, same]
  apply layout.moved (by rw [top]) moved held empty
    ⟨worker_mem_places.mpr (grouped.list master _ w listed).1, given_mem_places.mpr inside⟩
  · intro i' index'
    rw [spaces, update_apply]
    split
    · rw [size]
      unfold PGSIZE at *
      omega
    · exact layout.given i' index'
  · intro j w' listed'
    obtain ⟨_, before, same⟩ := stays j w' listed'
    rw [same]
    exact layout.worker j w' before
  · intro v has
    rw [stack v has]
    exact iff_of_false Bool.false_ne_true fun worker => worker i rfl
  · exact entries

/-- The address space gets another size, above all stacks. -/
theorem Layout.resized (positive : 0 < sz) (bound : sz < KERNBASE)
    (above : ∀ place a, stackAt k master place = some a → a + 2 ≤ pages sz)
    (proc : t.proc = update k.proc master { k.proc master with sz := sz })
    (grouped : Grouped k.proc)
    (entries : ∀ v, (entryOf t master v).isSome ↔
      v < pages sz ∧ (v < pages (k.proc master).sz → (entryOf k master v).isSome)) :
    Layout t master fun v =>
      (entryOf t master v).isSome && (heap v || (entryOf k master v).isNone) := by
  have top : t.proc master = { k.proc master with sz := sz } := by
    rw [proc, update_self]
  have workers : ∀ j w, (k.proc master).workerthread j = some w → t.proc w = k.proc w := by
    intro j w listed
    rw [proc, update_of_ne (grouped.ne_master listed)]
  have noted : stackAt t master = stackAt k master := by
    apply stackAt_congr
    · rw [top]
    · rw [top]
    · intro j w listed
      rw [workers j w listed]
  have size : (t.proc master).sz = sz := by
    rw [top]
  refine ⟨?_, ?_, ?_, ?_, ?_, ?_, ?_⟩
  · rw [size]
    exact ⟨positive, bound⟩
  · rw [noted, size]
    exact layout.apart.limit above
  · rw [top]
    exact layout.given
  · intro j w listed
    rw [top] at listed
    rw [workers j w listed]
    exact layout.worker j w listed
  · intro v
    rw [noted, size, entries v]
    refine and_congr_right fun _ => ?_
    rw [layout.mapped v]
    constructor
    · intro inside i has
      exact (inside (layout.apart.lt_top has)).2 i has
    · exact fun outside below => ⟨below, outside⟩
  · intro v
    rw [noted, size, Bool.and_eq_true, Bool.or_eq_true, entries v]
    rw [layout.heap v, isNone_iff_eq_none]
    constructor
    · rintro ⟨⟨below, kept⟩, ⟨_, outside⟩ | absent⟩
      · exact ⟨below, outside⟩
      · refine ⟨below, fun place has => ?_⟩
        have there := kept (layout.apart.lt_top has)
        rw [absent] at there
        cases there
    · rintro ⟨below, outside⟩
      by_cases old : v < pages (k.proc master).sz
      · refine ⟨⟨below, fun _ => ?_⟩, .inl ⟨old, outside⟩⟩
        exact (layout.mapped v).mpr ⟨old, fun i => outside (.given i)⟩
      · refine ⟨⟨below, fun older => absurd older old⟩, .inr ?_⟩
        rw [← not_isSome_iff_eq_none, layout.mapped v]
        exact fun inside => old inside.1
  · rw [noted]
    exact layout.room

end

theorem freeStack_some {m : Proc} (found : freeStack m = some i) :
    i < NTHRE ∧ m.freeusrspace i ≠ 0 ∧ stackStart m = m.freeusrspace i := by
  obtain ⟨_, inside, noted, _⟩ := Scan.first_eq_some found
  refine ⟨by omega, bne_iff_ne.mp noted, ?_⟩
  unfold stackStart
  rw [found]

theorem freeStack_none {m : Proc} (missed : freeStack m = none) :
    (∀ i < NTHRE, m.freeusrspace i = 0) ∧ stackStart m = m.sz := by
  constructor
  · intro i inside
    have unwanted := Scan.first_eq_none missed i (Nat.zero_le i) (by omega)
    rw [bne_eq_false_iff_eq] at unwanted
    exact unwanted
  · unfold stackStart
    rw [missed]

/-- Where a new stack goes nothing is mapped. -/
theorem Layout.start (layout : Layout k master heap)
    (aligned : freeStack (k.proc master) = none → (k.proc master).sz % PGSIZE = 0) :
    stackStart (k.proc master) % PGSIZE = 0 ∧ ∀ v, stackStart (k.proc master) / PGSIZE ≤ v →
      v < stackStart (k.proc master) / PGSIZE + 2 → entryOf k master v = none := by
  cases found : freeStack (k.proc master) with
  | some i =>
    obtain ⟨inside, noted, start⟩ := freeStack_some found
    rw [start]
    refine ⟨layout.given i inside, fun v lower upper => ?_⟩
    rw [← not_isSome_iff_eq_none, layout.mapped v]
    rintro ⟨_, outside⟩
    apply outside i
    refine ⟨_, ?_, lower, upper⟩
    rw [stackAt_given, if_pos inside]
    exact if_neg noted
  | none =>
    rw [(freeStack_none found).2]
    have whole := aligned found
    refine ⟨whole, fun v lower _ => ?_⟩
    rw [← not_isSome_iff_eq_none, layout.mapped v]
    rintro ⟨below, _⟩
    unfold pages PGSIZE at *
    omega

/-- `thread_create` fills no page that was mapped and leaves the entries of those as they are. -/
theorem layout_thread_create {arg : Nat} {made : Option Nat} (layout : Layout k master heap)
    (grouped : Grouped k.proc) (live : Live (k.proc p).state) (group : k.masterOf p = master)
    (aligned : freeStack (k.proc master) = none → (k.proc master).sz % PGSIZE = 0)
    (ran : thread_create k p arg = .ok (t, made)) : Layout t master heap ∧
      ∀ v pte, entryOf k master v = some pte → entryOf t master v = some pte := by
  have used := (grouped.masterOf live.settled).1.1
  rw [group] at used
  rcases thread_create_space grouped live ran with ⟨pgdirs, same⟩ |
    ⟨np, j, d, dir, mem, mem', dir', sz, new, unused, inside, free, pgdir, present, grown,
      _, size, cases⟩
  · have entries : ∀ v, entryOf t master v = entryOf k master v := by
      intro v
      unfold entryOf
      rw [same master used, pgdirs]
    refine ⟨?_, fun v pte there => (entries v).trans there⟩
    apply layout.keep
    · rw [same master used]
    · rw [same master used]
    · rw [same master used]
    · intro j w listed
      rw [same w (grouped.list master j w listed).2.1]
      exact ⟨rfl, id⟩
    · exact entries
  · rw [group] at free pgdir grown cases
    have different : np ≠ master := by
      intro equal
      rw [equal] at unused
      exact used unused
    obtain ⟨whole, unmapped⟩ := layout.start aligned
    have before := entryOf_eq pgdir present
    have after : ∀ (top : Proc) {dir₂ : Pgdir}, top.pgdir = some d →
        t.pgdirs = update k.pgdirs d (some dir₂) →
        t.proc = update (update k.proc master top) np new →
        ∀ v, entryOf t master v = dir₂.entry v := by
      intro top dir₂ same dirs proc
      apply entryOf_eq (d := d)
      · rw [proc, update_of_ne different.symm, update_self, same]
      · rw [dirs, update_self]
    rcases cases with ⟨zero, embryo, dirs, proc⟩ | ⟨positive, dir'', guarded, dirs, proc⟩
    · rw [zero] at grown
      have entries : ∀ v, entryOf t master v = entryOf k master v := by
        intro v
        rw [after (enlist (k.proc master) j np) pgdir dirs proc v, before v]
        exact stack_failed whole grown
          (fun v lower upper => (before v).symm.trans (unmapped v lower upper)) v
      refine ⟨?_, fun v pte there => (entries v).trans there⟩
      exact layout.unstacked grouped unused different free (size.trans zero) embryo proc entries
    · obtain ⟨isNew, bound, stack, outside⟩ := stack_mapped whole grown positive guarded
      obtain ⟨_, _, same⟩ := lend_resized (enlist (k.proc master) j np) sz
      have lent := after (lend (enlist (k.proc master) j np) sz) (same ▸ pgdir) dirs proc
      constructor
      · cases found : freeStack (k.proc master) with
        | some i =>
          obtain ⟨index, noted, start⟩ := freeStack_some found
          have place : ∀ v, Has 2 (stackAt k master) (.given i) v ↔
              (k.proc master).freeusrspace i / PGSIZE ≤ v ∧
                v < (k.proc master).freeusrspace i / PGSIZE + 2 := by
            intro v
            unfold Has
            rw [stackAt_given, if_pos index, startPage, if_neg noted]
            simp
          have result : lend (enlist (k.proc master) j np) sz = { enlist (k.proc master) j np with
              freeusrspace := update (k.proc master).freeusrspace i 0 } := by
            unfold lend
            rw [show freeStack (enlist (k.proc master) j np) = some i from found]
            rfl
          rw [result] at proc
          rw [start] at isNew stack outside
          apply layout.lent grouped unused different inside free index noted (size.trans isNew) proc
          · intro v has
            rw [place v] at has
            rw [lent v]
            exact (stack v has.1 has.2).2
          · intro v has
            rw [place v] at has
            rw [lent v, before v]
            exact outside v has
        | none =>
          obtain ⟨fresh, start⟩ := freeStack_none found
          have result : lend (enlist (k.proc master) j np) sz = { enlist (k.proc master) j np with
              sz := sz } := by
            unfold lend
            rw [show freeStack (enlist (k.proc master) j np) = none from found]
          rw [result] at proc
          rw [start] at isNew stack outside
          rw [isNew] at proc bound
          apply layout.pushed grouped unused different free fresh (aligned found) bound
            (size.trans isNew) proc
          · intro v lower upper
            rw [lent v]
            exact (stack v lower upper).2
          · intro v has
            rw [lent v, before v]
            exact outside v has
      · intro v pte there
        rw [before v] at there
        rw [lent v, outside v, there]
        rintro ⟨lower, upper⟩
        rw [(stack v lower upper).1] at there
        cases there

end Xv6.Process.Stacks
