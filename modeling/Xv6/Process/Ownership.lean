import Xv6.Process.Members
import Xv6.Process.Stacks

/- Which pages of an address space belong to whom while the members of one group call `sbrk`,
`thread_create`, `thread_exit` and `thread_join`. -/
namespace Xv6.Process.Stacks

open Function Calls Members Outcome Regions Sizes Vm Tables Option

variable {k t : Kernel} {master p q w : Nat} {heap : Nat → Bool} {reserved : List Nat}
    {mem mem' : Mem} {event : Event} {m : Machine}

/-- Page `v` is in the stack of thread `w`. -/
def InStack (k : Kernel) (w v : Nat) : Prop := ∃ a ∈ endPage (k.proc w).sz, a ≤ v ∧ v < a + 2

/-- Each user page that is mapped is a page of the image and the heap, or a page of the stack of one
thread that was made and not joined yet. -/
structure Partitioned (k : Kernel) (master : Nat) (heap : Nat → Bool) : Prop where
  mapped : ∀ v, (entryOf k master v).isSome ↔ heap v = true ∨ ∃ w ∈ k.workers master, InStack k w v
  heap : ∀ v, heap v = true → ∀ w ∈ k.workers master, ¬ InStack k w v
  apart : ∀ v, ∀ w ∈ k.workers master, ∀ w' ∈ k.workers master, InStack k w v →
    InStack k w' v → w = w'
  stack : ∀ w ∈ k.workers master, Live (k.proc w).state → (endPage (k.proc w).sz).isSome
  below : ∀ v, (entryOf k master v).isSome → v * PGSIZE < KERNBASE

theorem has_worker {j v : Nat} : Has 2 (stackAt k master) (.worker j) v ↔
    ∃ w, (k.proc master).workerthread j = some w ∧ InStack k w v := by
  unfold Has InStack
  rw [stackAt_worker]
  constructor
  · rintro ⟨a, noted, inside⟩
    obtain ⟨w, listed, place⟩ := bind_eq_some_iff.mp noted
    exact ⟨w, listed, a, place, inside⟩
  · rintro ⟨w, listed, a, place, inside⟩
    exact ⟨a, bind_eq_some_iff.mpr ⟨w, listed, place⟩, inside⟩

theorem Layout.partitioned (layout : Layout k master heap) (grouped : Grouped k.proc) :
    Partitioned k master heap := by
  have noted : ∀ {w v}, w ∈ k.workers master → InStack k w v →
      Has 2 (stackAt k master) (.worker (k.proc w).tindex) v := by
    intro w v member inside
    obtain ⟨i, listed⟩ := grouped.mem_workers.mp member
    rw [(grouped.list master i w listed).2.2.2]
    exact has_worker.mpr ⟨w, listed, inside⟩
  constructor
  · intro v
    rw [layout.mapped v, layout.heap v]
    constructor
    · rintro ⟨below, outside⟩
      by_cases inside : ∃ w ∈ k.workers master, InStack k w v
      · exact .inr inside
      refine .inl ⟨below, fun place has => ?_⟩
      cases place with
      | given i => exact outside i has
      | worker j =>
        obtain ⟨w, listed, own⟩ := has_worker.mp has
        exact inside ⟨w, grouped.mem_workers.mpr ⟨j, listed⟩, own⟩
    · rintro (⟨below, outside⟩ | ⟨w, member, own⟩)
      · exact ⟨below, fun i => outside (.given i)⟩
      · have has := noted member own
        refine ⟨layout.apart.lt_top has, fun i given => ?_⟩
        cases layout.apart.unique has given
  · intro v isHeap w member own
    exact ((layout.heap v).mp isHeap).2 _ (noted member own)
  · intro v w member w' member' own own'
    have same := layout.apart.unique (noted member own) (noted member' own')
    obtain ⟨i, listed⟩ := grouped.mem_workers.mp member
    obtain ⟨i', listed'⟩ := grouped.mem_workers.mp member'
    have index := Place.worker.inj same
    rw [(grouped.list master i w listed).2.2.2, (grouped.list master i' w' listed').2.2.2] at index
    rw [index, listed'] at listed
    exact (Option.some.inj listed).symm
  · intro w member live
    obtain ⟨i, listed⟩ := grouped.mem_workers.mp member
    rcases layout.worker i w listed with ⟨_, embryo⟩ | ⟨_, above⟩
    · exact absurd embryo live.settled.2
    · unfold endPage
      rw [if_neg (by omega)]
      rfl
  · intro v there
    have below := ((layout.mapped v).mp there).1
    have bound := layout.size.2
    unfold pages PGSIZE at *
    omega

/-- All stacks are noted and all pages mapped as before. -/
structure Still (k t : Kernel) : Prop where
  ties : ∀ q, SameTies (k.proc q) (t.proc q)
  sizes : ∀ q, (t.proc q).sz = (k.proc q).sz ∧ (t.proc q).freeusrspace = (k.proc q).freeusrspace
  pgdirs : t.pgdirs = k.pgdirs

theorem Still.entry (still : Still k t) (v : Nat) : entryOf t master v = entryOf k master v := by
  unfold entryOf
  rw [still.pgdirs, (still.ties master).pgdir]

theorem still_of_ended {gone : Nat → Prop} {head : Nat} (ends : Ended gone head k t) : Still k t :=
  ⟨ends.ties, fun q => (ends.record q).2, ends.memory.pgdirs⟩

theorem Still.set {new : Proc} (ties : SameTies (k.proc p) new)
    (record : SameRecord (k.proc p) new) :
    Still k (k.setProc p new) := by
  constructor
  · exact fun q => (SameTies.refl _).set ties
  · intro q
    have same := (SameRecord.refl (k.proc q)).set record
    exact ⟨same.sz, same.freeusrspace⟩
  · rfl

theorem Layout.still (layout : Layout k master heap) (still : Still k t)
    (embryo : ∀ q, (k.proc q).state = .embryo → (t.proc q).state = .embryo) :
    Layout t master heap := by
  apply layout.keep (still.sizes master).1 (still.sizes master).2 (still.ties master).workerthread
  · exact fun j w _ => ⟨(still.sizes w).1, embryo w⟩
  · exact still.entry

theorem Still.workers (still : Still k t) : t.workers master = k.workers master := by
  unfold Kernel.workers
  rw [(still.ties master).workerthread]

theorem Still.inStack (still : Still k t) {v : Nat} : InStack t w v ↔ InStack k w v := by
  unfold InStack
  rw [(still.sizes w).1]

theorem Partitioned.still (owned : Partitioned k master heap) (still : Still k t)
    (live : ∀ q, Live (t.proc q).state → Live (k.proc q).state) : Partitioned t master heap := by
  constructor
  · intro v
    rw [still.entry v, owned.mapped v, still.workers]
    simp only [still.inStack]
  · intro v isHeap w member own
    rw [still.workers] at member
    exact owned.heap v isHeap w member (still.inStack.mp own)
  · intro v w member w' member' own own'
    rw [still.workers] at member member'
    exact owned.apart v w member w' member' (still.inStack.mp own) (still.inStack.mp own')
  · intro w member alive
    rw [still.workers] at member
    rw [(still.sizes w).1]
    exact owned.stack w member (live w alive)
  · intro v there
    rw [still.entry v] at there
    exact owned.below v there

/-- A thread that ended can be joined: its stack is two pages above page 0, and there is a place to
note that it was given back. -/
theorem Layout.returnable (layout : Layout k master heap) (grouped : Grouped k.proc)
    (link : (k.proc w).master = some master) : Returnable k w := by
  intro zombie
  have listed := grouped.link w master (by rw [zombie]; decide) link
  have index := (grouped.list master _ w listed).1
  obtain ⟨aligned, above, held⟩ := layout.stacked listed zombie
  have top := layout.apart.below _ _ held
  have bound := layout.size.2
  refine ⟨by omega, ?_, fun m isMaster => ?_⟩
  · unfold stackBase
    unfold pages PGSIZE KERNBASE at *
    omega
  rw [link] at isMaster
  cases isMaster
  by_contra full
  -- 32 stacks that were given back and that of the thread are more than there ever were
  have all : insert (Place.worker (k.proc w).tindex) ((Finset.range NTHRE).image Place.given) ⊆
      places.filter fun place => (stackAt k master place).isSome := by
    intro place member
    rw [Finset.mem_filter]
    rcases Finset.mem_insert.mp member with here | member
    · rw [here, held]
      refine ⟨?_, rfl⟩
      unfold places
      simpa using index
    obtain ⟨i, inside, here⟩ := Finset.mem_image.mp member
    rw [Finset.mem_range] at inside
    rw [← here, stackAt_given, if_pos inside]
    refine ⟨?_, ?_⟩
    · unfold places
      simpa using inside
    · unfold startPage
      rw [if_neg fun zero => full ⟨i, inside, zero⟩]
      rfl
  have count := Finset.card_le_card all
  rw [Finset.card_insert_of_notMem (by simp), Finset.card_image_of_injective _ fun _ _ =>
      Place.given.inj,
    Finset.card_range] at count
  have room := layout.room
  unfold used at room
  omega

/-- `thread_join` unmaps at most the stack of the thread. -/
theorem layout_joinLoop {join : Nat} {progress : Progress} (layout : Layout k master heap)
    (good : Consistent reserved k) (live : Live (k.proc p).state)
    (group : (k.proc join).state = .zombie → (k.proc join).master = some master)
    (ran : joinLoop k p join = .ok (t, progress)) :
    Layout t master heap ∧ ∀ v, entryOf t master v = entryOf k master v ∨
      InStack k join v ∧ entryOf t master v = none := by
  rcases joinLoop_eq ran with ⟨_, _, same⟩ | ⟨zombie, _, failed⟩ | ⟨_, _, _, _, _, value, _⟩
  · have still : Still k t := by
      rw [same]
      exact Still.set ⟨rfl, rfl, rfl, rfl, rfl⟩ ⟨rfl, rfl, rfl, rfl⟩
    refine ⟨layout.still still fun q embryo => ?_, fun v => .inl (still.entry v)⟩
    have other : q ≠ p := by
      intro here
      rw [here] at embryo
      exact live.settled.2 embryo
    rw [same, setProc_of_ne other]
    exact embryo
  · exact absurd failed ((layout.returnable good.grouped (group zombie)).freed zombie t)
  · rw [value] at ran
    obtain ⟨master', i, page, d, dir, mem, dir', sz, zombie, link, listed, _, inside,
      free, _, pgdir,
      present, unmapped, _, pgdirs, proc⟩ := joinLoop_done good.grouped ran
    rw [group zombie] at link
    cases link
    obtain ⟨aligned, above, held⟩ := layout.stacked listed zombie
    have top := layout.apart.below _ _ held
    have bound := layout.size.2
    have base : stackBase (k.proc join).sz = (k.proc join).sz - 2 * PGSIZE := by
      unfold stackBase
      unfold pages PGSIZE KERNBASE at *
      omega
    obtain ⟨_, size, entries⟩ := deallocuvm_spec unmapped
    rw [base] at size entries
    have first : pages ((k.proc join).sz - 2 * PGSIZE) = (k.proc join).sz / PGSIZE - 2 := by
      unfold pages PGSIZE at *
      omega
    have last : pages (k.proc join).sz = (k.proc join).sz / PGSIZE - 2 + 2 := by
      unfold pages PGSIZE at *
      omega
    rw [first, last] at entries
    have region : ∀ v, Has 2 (stackAt k master) (.worker (k.proc join).tindex) v ↔
        (k.proc join).sz / PGSIZE - 2 ≤ v ∧ v < (k.proc join).sz / PGSIZE - 2 + 2 := by
      intro v
      unfold Has
      rw [held]
      simp
    have shared := good.spaces.shared master _ join listed
    rw [shared] at pgdir
    have before := entryOf_eq pgdir present
    have after : ∀ v, entryOf t master v = dir'.entry v := by
      apply entryOf_eq (d := d)
      · rw [proc, update_of_ne (good.grouped.ne_master listed).symm, update_self]
        exact pgdir
      · rw [pgdirs, update_self]
    have stack : ∀ v, Has 2 (stackAt k master) (.worker (k.proc join).tindex) v →
        entryOf t master v = none := by
      intro v has
      rw [after v, entries v, if_pos ((region v).mp has)]
    have outside : ∀ v, ¬ Has 2 (stackAt k master) (.worker (k.proc join).tindex) v →
        entryOf t master v = entryOf k master v := by
      intro v has
      rw [after v, entries v, before v, if_neg fun inside => has ((region v).mpr inside)]
    constructor
    · exact layout.returned good.grouped listed zombie inside free (by omega) proc stack outside
    intro v
    by_cases has : Has 2 (stackAt k master) (.worker (k.proc join).tindex) v
    · obtain ⟨w, listed', own⟩ := has_worker.mp has
      rw [listed] at listed'
      cases listed'
      exact .inr ⟨own, stack v has⟩
    · exact .inl (outside v has)

/-- The pages of the image and the heap after `sbrk`: pages that it unmaps leave, pages that it maps
join. -/
def heapAfter (master : Nat) (k t : Kernel) (heap : Nat → Bool) (v : Nat) : Bool :=
  (entryOf t master v).isSome && (heap v || (entryOf k master v).isNone)

theorem Layout.heapAfter_same (layout : Layout k master heap)
    (entries : ∀ v, entryOf t master v = entryOf k master v) :
    heapAfter master k t heap = heap := by
  funext v
  have owner := layout.heap v
  have mapped := layout.mapped v
  unfold heapAfter
  rw [entries v]
  cases isHeap : heap v with
  | true =>
    obtain ⟨below, outside⟩ := owner.mp isHeap
    rw [mapped.mpr ⟨below, fun i => outside (.given i)⟩]
    rfl
  | false => cases entryOf k master v <;> rfl

/-- A call that shrinks the address space leaves some of it, and all stacks, also those that were
given back. -/
def Clears (k : Kernel) (master : Nat) (n : Int) : Prop :=
  n < 0 → grown (k.proc master).sz n < (k.proc master).sz → 0 < grown (k.proc master).sz n ∧
    ∀ place ∈ places, ∀ a ∈ stackAt k master place, a + 2 ≤ pages (grown (k.proc master).sz n)

instance (k : Kernel) (master : Nat) (n : Int) : Decidable (Clears k master n) :=
  inferInstanceAs (Decidable (_ → _ → _ ∧ ∀ place ∈ places, ∀ a ∈ stackAt k master place, _ ≤ _))

theorem mem_places {place : Place} {a : Nat} (grouped : Grouped k.proc)
    (noted : stackAt k master place = some a) : place ∈ places := by
  unfold places
  cases place with
  | given i =>
    rw [stackAt_given] at noted
    have inside := (ite_none_right_eq_some.mp noted).1
    simpa using inside
  | worker j =>
    obtain ⟨w, listed, _⟩ := bind_eq_some_iff.mp noted
    have inside := (grouped.list master j w listed).1
    simpa using inside

/-- What `growproc` does to the pages, when it works. -/
theorem growproc_entries {dir dir' : Pgdir} {n : Int} {sz : Nat} (layout : Layout k master heap)
    (grouped : Grouped k.proc) (clears : Clears k master n)
    (entries : ∀ v, entryOf k master v = dir.entry v) (positive : sz ≠ 0)
    (worked : 0 < n ∧ allocuvm mem dir (k.proc master).sz (grown (k.proc master).sz n) =
        .ok (mem', dir', sz) ∨
      n < 0 ∧ deallocuvm mem dir (k.proc master).sz (grown (k.proc master).sz n) = .ok (mem', dir',
    sz)) :
    sz < KERNBASE ∧ (∀ place a, stackAt k master place = some a → a + 2 ≤ pages sz) ∧
    (∀ v < pages sz, v < pages (k.proc master).sz → dir'.entry v = dir.entry v) ∧
    (∀ v < pages sz, pages (k.proc master).sz ≤ v → (dir'.entry v).isSome) ∧
    ∀ v, pages sz ≤ v → dir'.entry v = none := by
  have bound := layout.size.2
  have beyond : ∀ v, pages (k.proc master).sz ≤ v → dir.entry v = none := by
    intro v above
    rw [← entries v, ← not_isSome_iff_eq_none, layout.mapped v]
    omega
  by_cases unchanged : sz = (k.proc master).sz ∧ ∀ v, dir'.entry v = dir.entry v
  · obtain ⟨isOld, same⟩ := unchanged
    rw [isOld]
    refine ⟨bound, layout.apart.below, fun v _ _ => same v, fun v below above => by omega, ?_⟩
    exact fun v above => (same v).trans (beyond v above)
  rcases worked with ⟨_, worked⟩ | ⟨negative, worked⟩
  · rcases (allocuvm_spec worked).2 with ⟨isNew, larger, small, new, old⟩ |
      ⟨isOld, _, same⟩ | ⟨zero, _⟩
    · have order := pages_le larger
      rw [isNew]
      refine ⟨small, fun place a noted => ?_, fun v _ below => old v (.inl below), ?_, ?_⟩
      · exact Nat.le_trans (layout.apart.below place a noted) order
      · intro v below above
        obtain ⟨_, frame, mapped⟩ := new v above below
        rw [mapped]
        rfl
      · intro v above
        rw [old v (.inr above)]
        exact beyond v (Nat.le_trans order above)
    · exact absurd ⟨isOld, same⟩ unchanged
    · exact absurd zero positive
  · obtain ⟨_, size, same⟩ := deallocuvm_spec worked
    by_cases shrinks : grown (k.proc master).sz n < (k.proc master).sz
    · obtain ⟨_, above⟩ := clears negative shrinks
      have order := pages_le (Nat.le_of_lt shrinks)
      have isNew : sz = grown (k.proc master).sz n := by omega
      rw [isNew]
      refine ⟨by omega, fun place a noted => above place (mem_places grouped noted) a noted, ?_, ?_,
        ?_⟩
      · intro v below _
        rw [same v, if_neg (by omega)]
      · intro v below beyond'
        omega
      · intro v outside
        rw [same v]
        split
        · rfl
        · exact beyond v (by omega)
    · refine absurd ⟨by omega, fun v => ?_⟩ unchanged
      have order := pages_le (Nat.le_of_not_lt shrinks)
      rw [same v, if_neg (by omega)]

/-- `sbrk` leaves the stacks of threads as they are. -/
theorem layout_growproc {n : Int} {done : Bool} (layout : Layout k master heap)
    (grouped : Grouped k.proc) (group : k.masterOf p = master) (clears : Clears k master n)
    (ran : growproc k p n = .ok (t, done)) : Layout t master (heapAfter master k t heap) ∧
      ∀ place v, Has 2 (stackAt k master) place v → entryOf t master v = entryOf k master v := by
  by_cases same : t.proc = k.proc ∧ ∀ v, entryOf t master v = entryOf k master v
  · obtain ⟨table, entries⟩ := same
    rw [layout.heapAfter_same entries]
    refine ⟨?_, fun _ v _ => entries v⟩
    apply layout.keep _ _ _ _ entries
    · rw [table]
    · rw [table]
    · rw [table]
    · rw [table]
      exact fun _ _ _ => ⟨rfl, id⟩
  rcases growproc_eq ran with ⟨_, unchanged⟩ |
    ⟨d, dir, mem, dir', sz, pgdir, present, worked, cases⟩
  · rw [unchanged] at same
    exact absurd ⟨rfl, fun _ => rfl⟩ same
  rw [group] at pgdir worked cases
  have before := entryOf_eq pgdir present
  have beyond : ∀ v, pages (k.proc master).sz ≤ v → dir.entry v = none := by
    intro v above
    rw [← before v, ← not_isSome_iff_eq_none, layout.mapped v]
    omega
  rcases cases with ⟨_, zero, result⟩ | ⟨_, positive, result⟩
  · have after : ∀ v, entryOf t master v = dir'.entry v := by
      apply entryOf_eq (d := d)
      · rw [result]
        exact pgdir
      · rw [result]
        exact update_self ..
    refine absurd ⟨by rw [result]; rfl, fun v => ?_⟩ same
    rw [after v, before v]
    rcases worked with ⟨_, worked⟩ | ⟨negative, worked⟩
    · rw [zero] at worked
      rcases (allocuvm_spec worked).2 with ⟨isZero, larger, _⟩ | ⟨isZero, _⟩ | ⟨_, all | ⟨_, all⟩⟩
      · have positive := layout.size.1
        omega
      · have positive := layout.size.1
        omega
      · exact all v
      · rw [all v]
        split
        · rename_i inside
          exact (beyond v inside.1).symm
        · rfl
    · obtain ⟨_, size, _⟩ := deallocuvm_spec worked
      have left := clears negative
      have positive := layout.size.1
      omega
  · obtain ⟨bound, above, old, new, outside⟩ :=
      growproc_entries layout grouped clears before positive worked
    have after : ∀ v, entryOf t master v = dir'.entry v := by
      apply entryOf_eq (d := d)
      · rw [result, setProc_self]
        exact pgdir
      · rw [result]
        exact update_self ..
    constructor
    · apply layout.resized (Nat.pos_of_ne_zero positive) bound above _ grouped
      · intro v
        rw [after v, before v]
        by_cases below : v < pages sz
        · by_cases older : v < pages (k.proc master).sz
          · rw [old v below older]
            simp [below, older]
          · rw [new v below (by omega)]
            simp [below, older]
        · rw [outside v (by omega)]
          simp [below]
      · rw [result]
        rfl
    · intro place v has
      obtain ⟨a, noted, lower, upper⟩ := has
      have small := above place a noted
      have small' := layout.apart.below place a noted
      rw [after v, before v]
      exact old v (by omega) (by omega)

/-- The machine, and which pages are image and heap. -/
structure Owned where
  m : Machine
  heap : Nat → Bool

def ownedStep (master : Nat) (s : Owned) (event : Event) : Option Owned :=
  (step s.m event).map fun next => ⟨next, match event with
    | .sbrk .. => heapAfter master s.m.k next.k s.heap
    | _ => s.heap⟩

/-- At first all pages are image and heap. -/
def Owned.start (master : Nat) (m : Machine) : Owned := ⟨m, fun v => (entryOf m.k master v).isSome⟩

/-- `master` is a process without threads, and the pages below its size are mapped. -/
structure Starts (master : Nat) (m : Machine) : Prop extends Lone master m where
  consistent : Consistent [] m.k
  fresh : ∀ i < NTHRE, (m.k.proc master).freeusrspace i = 0
  size : 0 < (m.k.proc master).sz ∧ (m.k.proc master).sz < KERNBASE
  image : ∀ v, (entryOf m.k master v).isSome ↔ v < pages (m.k.proc master).sz

/-- A new stack starts at a page, `sbrk` leaves all stacks, and the process ends when no other
thread runs. -/
def Careful (master : Nat) (m : Machine) : Event → Prop
  | .threadCreate .. => freeStack (m.k.proc master) = none → (m.k.proc master).sz % PGSIZE = 0
  | .threadExit p _ => (m.k.proc p).master = none → m.Alone p
  | .sbrk _ n => Clears m.k master n
  | _ => True

instance (master : Nat) (m : Machine) (event : Event) : Decidable (Careful master m event) := by
  rcases event <;> dsimp only [Careful] <;> infer_instance

/-- What a step may do to the pages of the group. -/
def Touches (master : Nat) (m next : Machine) : Event → Prop
  | .threadCreate .. => ∀ v pte, entryOf m.k master v = some pte →
      entryOf next.k master v = some pte
  | .threadJoin _ thread => ∀ v, entryOf next.k master v = entryOf m.k master v ∨
      entryOf next.k master v = none ∧ ∃ w ∈ m.k.slotOf thread, InStack m.k w v
  | .joinAgain p => ∀ v, entryOf next.k master v = entryOf m.k master v ∨
      entryOf next.k master v = none ∧ ∃ w ∈ m.joining p, InStack m.k w v
  | .sbrk .. => ∀ w ∈ m.k.workers master, ∀ v, InStack m.k w v →
      entryOf next.k master v = entryOf m.k master v
  | _ => ∀ v, entryOf next.k master v = entryOf m.k master v

def Frame (master : Nat) (s : Owned) (event : Event) : Prop :=
  ∀ next, step s.m event = some next → Touches master s.m next event

/-- The process of the group lives, or it ended. -/
def Phase (master : Nat) (k : Kernel) (heap : Nat → Bool) : Prop :=
  Live (k.proc master).state ∧ Layout k master heap ∨
    (k.proc master).state = .zombie ∧ Partitioned k master heap

section

variable (phase : Phase master k heap)
include phase

theorem Phase.partitioned (grouped : Grouped k.proc) : Partitioned k master heap := by
  rcases phase with ⟨_, layout⟩ | ⟨_, owned⟩
  · exact layout.partitioned grouped
  · exact owned

theorem Phase.used : (k.proc master).state ≠ .unused := by
  rcases phase with ⟨live, _⟩ | ⟨zombie, _⟩
  · exact live.settled.1
  · rw [zombie]
    exact ProcState.noConfusion

theorem Phase.active (grouped : Grouped k.proc) (live : Live (k.proc p).state)
    (group : k.masterOf p = master) :
    Live (k.proc master).state ∧ Layout k master heap := by
  rcases phase with alive | ⟨zombie, _⟩
  · exact alive
  · have alive := grouped.masterOf_live live
    rw [group] at alive
    exact absurd zombie alive

theorem Phase.still (still : Still k t) (moves : ∀ q, Moves (k.proc q).state (t.proc q).state) :
    Phase master t heap := by
  rcases phase with ⟨live, layout⟩ | ⟨zombie, owned⟩
  · exact .inl ⟨(moves master).live.mpr live, layout.still still fun q => (moves q).embryo.mpr⟩
  · exact .inr ⟨(moves master).used.2.2.mpr zombie, owned.still still fun q => (moves q).live.mp⟩

theorem Phase.set {new : Proc} (live : Live (k.proc p).state) (live' : Live new.state)
    (ties : SameTies (k.proc p) new) (record : SameRecord (k.proc p) new) :
    Phase master (k.setProc p new) heap ∧ ∀ v,
      entryOf (k.setProc p new) master v = entryOf k master v := by
  have still := Still.set ties record
  exact ⟨phase.still still (setProc_moves (.inr ⟨live, live'⟩)), still.entry⟩

theorem phase_thread_exit {retval : Nat} (grouped : Grouped k.proc) (live : Live (k.proc p).state)
    (group : k.masterOf p = master) (ran : thread_exit k p retval = .ok t) :
    Phase master t heap ∧ ∀ v, entryOf t master v = entryOf k master v := by
  obtain ⟨alive, layout⟩ := phase.active grouped live group
  obtain ⟨link, ran⟩ | ⟨head, link⟩ := thread_exit_cases ran
  · have ends := ended_exit grouped live.settled ran
    have still := still_of_ended ends
    rw [group] at ends
    refine ⟨.inr ⟨ends.dead master (.inl rfl), ?_⟩, still.entry⟩
    exact (layout.partitioned grouped).still still fun q after => (ends.live after).2
  have ends := ended_thread_exit grouped live link ran
  rw [(masterOf_worker link).symm.trans group] at link
  have different := grouped.ne_master (grouped.link p master live.settled link)
  have still := still_of_ended ends
  refine ⟨.inl ⟨?_, layout.still still fun q embryo => ?_⟩, still.entry⟩
  · exact (ends.others master different.symm).live.1.mpr alive
  · have other : q ≠ p := by
      intro here
      rw [here] at embryo
      exact live.settled.2 embryo
    rw [(ends.others q other).of_awake (embryo ▸ ProcState.noConfusion), embryo]

theorem phase_joinLoop {join : Nat} {progress : Progress} (good : Consistent reserved k)
    (live : Live (k.proc p).state) (group : k.masterOf p = master)
    (link : (k.proc join).state = .zombie → (k.proc join).master = some master)
    (ran : joinLoop k p join = .ok (t, progress)) : Phase master t heap ∧
      ∀ v, entryOf t master v = entryOf k master v ∨ entryOf t master v = none ∧
        InStack k join v := by
  obtain ⟨alive, layout⟩ := phase.active good.grouped live group
  obtain ⟨after, entries⟩ := layout_joinLoop layout good live link ran
  refine ⟨.inl ⟨?_, after⟩, fun v => (entries v).imp id And.symm⟩
  rcases (joinLoop_table good.grouped ran).2 with ⟨_, _, proc⟩ | ⟨_, resized⟩ |
    ⟨head, zombie, link', listed, _, others, top, _⟩
  · rw [proc, update_apply]
    split
    · exact .inr (.inr rfl)
    · exact alive
  · obtain ⟨sz, free, same⟩ := resized master
    rw [same]
    exact alive
  · rw [link zombie] at link'
    cases link'
    obtain ⟨sz, free, same⟩ := top
    rw [same]
    exact alive

end

section

variable (phase : Phase master k heap) (grouped : Grouped k.proc) (live : Live (k.proc p).state)
    (group : k.masterOf p = master)
include phase grouped live group

theorem phase_thread_create {arg : Nat} {made : Option Nat}
    (aligned : freeStack (k.proc master) = none → (k.proc master).sz % PGSIZE = 0)
    (ran : thread_create k p arg = .ok (t, made)) :
    Phase master t heap ∧ ∀ v pte, entryOf k master v = some pte →
      entryOf t master v = some pte := by
  obtain ⟨alive, layout⟩ := phase.active grouped live group
  obtain ⟨after, entries⟩ := layout_thread_create layout grouped live group aligned ran
  refine ⟨.inl ⟨?_, after⟩, entries⟩
  have used := alive.settled.1
  rw [← group] at used alive ⊢
  have isOld : ∀ {np}, k.unusedSlot = some np → k.masterOf p ≠ np :=
    fun found equal => used (equal ▸ (unusedSlot_spec found).2)
  rcases thread_create_table used ran with ⟨rfl, _⟩ | ⟨_, _, np, found, ⟨_, table⟩ |
    ⟨i, frame, sz, top, state, _, _, ⟨_, _, rfl⟩, _, table⟩⟩
  · exact alive
  · rw [table, update_of_ne (isOld found)]
    exact alive
  · rw [table, update_of_ne (isOld found), update_self]
    exact alive

theorem phase_growproc {n : Int} {done : Bool} (clears : Clears k master n)
    (ran : growproc k p n = .ok (t, done)) : Phase master t (heapAfter master k t heap) ∧
      ∀ w ∈ k.workers master, ∀ v, InStack k w v → entryOf t master v = entryOf k master v := by
  obtain ⟨alive, layout⟩ := phase.active grouped live group
  obtain ⟨after, entries⟩ := layout_growproc layout grouped group clears ran
  refine ⟨.inl ⟨?_, after⟩, fun w member v own => ?_⟩
  · obtain ⟨sz, free, same⟩ := (growproc_resized ran).2 master
    rw [same]
    exact alive
  · obtain ⟨i, listed⟩ := grouped.mem_workers.mp member
    exact entries (.worker i) v (has_worker.mpr ⟨w, listed, own⟩)

end

/-- What holds along the runs of one group. -/
structure Good (master : Nat) (s : Owned) : Prop where
  base : Base s.m.k s.m.cpu
  consistent : Consistent [] s.m.k
  root : (s.m.k.proc master).master = none
  joins : Joins master s.m
  phase : Phase master s.m.k s.heap

variable {s next : Owned}

section

variable (good : Good master s) (within : Within master s.m event)
    (careful : Careful master s.m event)
include good within careful

theorem Good.tables (taken : step s.m event = some m) : Tables.Careful s.m event := by
  cases event with
  | threadJoin p thread =>
    obtain ⟨onCpu, _⟩ := join_eq_some taken
    obtain ⟨_, layout⟩ := good.phase.active good.base.grouped (good.base.live onCpu) within.1
    intro w found zombie
    have link := within.2 w found (by rw [zombie]; exact ProcState.noConfusion)
    exact layout.returnable good.base.grouped link zombie
  | joinAgain p =>
    obtain ⟨onCpu, _⟩ := joinAgain_eq_some taken
    obtain ⟨_, layout⟩ := good.phase.active good.base.grouped (good.base.live onCpu) within
    intro w waits zombie
    have link := good.joins p w waits within (by rw [zombie]; exact ProcState.noConfusion)
    exact layout.returnable good.base.grouped link zombie
  | threadExit p retval => exact careful
  | threadCreate p arg => trivial
  | sbrk p n => trivial
  | dispatch p => trivial
  | yield p => trivial
  | sleep p chan => trivial
  | wakeup chan => trivial
  | fork p => exact within.elim
  | exit p => exact within.elim
  | wait p => exact within.elim
  | exec p file argv => exact within.elim
  | kill pid => exact within.elim

/-- One step keeps the partition and touches only the pages that it may. -/
theorem phase_step (stepped : ownedStep master s event = some next) :
    Phase master next.m.k next.heap ∧ Touches master s.m next.m event := by
  obtain ⟨m, taken, result⟩ := map_eq_some_iff.mp stepped
  cases result
  have grouped := good.base.grouped
  cases did_of_step taken with
  | threadCreate onCpu ran =>
    exact phase_thread_create good.phase grouped (good.base.live onCpu) within careful ran
  | threadExit onCpu ran =>
    exact phase_thread_exit good.phase grouped (good.base.live onCpu) within ran
  | joinFree => exact ⟨good.phase, fun _ => .inl rfl⟩
  | @threadJoin p thread w t progress onCpu found looks =>
    unfold Touches
    rw [join_kernel]
    obtain ⟨after, entries⟩ :=
      phase_joinLoop good.phase good.consistent (good.base.live onCpu) within.1
      (fun zombie => within.2 w found (by rw [zombie]; exact ProcState.noConfusion)) looks
    exact ⟨after, fun v => (entries v).imp id fun gone => ⟨gone.1, w, found, gone.2⟩⟩
  | @joinAgain p join t progress onCpu waits looks =>
    unfold Touches
    rw [join_kernel]
    obtain ⟨after, entries⟩ :=
      phase_joinLoop good.phase good.consistent (good.base.live onCpu) within
      (fun zombie => good.joins p join waits within (by rw [zombie]; exact ProcState.noConfusion))
        looks
    exact ⟨after, fun v => (entries v).imp id fun gone => ⟨gone.1, join, waits, gone.2⟩⟩
  | sbrk onCpu ran =>
    exact phase_growproc good.phase grouped (good.base.live onCpu) within careful ran
  | dispatch ready _ =>
    exact good.phase.set (.inl ready) (.inr (.inl rfl)) ⟨rfl, rfl, rfl, rfl, rfl⟩
      ⟨rfl, rfl, rfl, rfl⟩
  | yield onCpu =>
    exact good.phase.set (good.base.live onCpu) (.inl rfl) ⟨rfl, rfl, rfl, rfl, rfl⟩
      ⟨rfl, rfl, rfl, rfl⟩
  | sleep onCpu =>
    exact good.phase.set (good.base.live onCpu) (.inr (.inr rfl)) ⟨rfl, rfl, rfl, rfl, rfl⟩
      ⟨rfl, rfl, rfl, rfl⟩
  | @wakeup chan =>
    have still : Still s.m.k (wakeup1 s.m.k chan) := by
      refine ⟨fun q => (wakeup1_ties s.m.k chan q).1, fun q => ?_,
        (wakeup1_memory s.m.k chan).pgdirs⟩
      have record := wakeup1_record s.m.k chan q
      exact ⟨record.sz, record.freeusrspace⟩
    refine ⟨good.phase.still still fun q => ?_, still.entry⟩
    exact moves_of_woken (wakeup1_ties s.m.k chan q).2
  | fork | exit | wait | exec | kill => exact within.elim

theorem good_step (stepped : ownedStep master s event = some next) : Good master next := by
  obtain ⟨phase, _⟩ := phase_step good within careful stepped
  obtain ⟨m, taken, result⟩ := map_eq_some_iff.mp stepped
  cases result
  have tables := good.tables within careful taken
  refine ⟨base_step good.base tables.gentle taken, ?_, ?_, ?_, phase⟩
  · exact Tables.consistent_step good.base good.consistent tables taken
  · exact root_step good.base good.root good.phase.used within taken
  · exact joins_step good.base good.joins within taken

end

theorem Starts.layout (starts : Starts master m) :
    Layout m.k master fun v => (entryOf m.k master v).isSome := by
  have empty : ∀ place, stackAt m.k master place = none := by
    intro place
    cases place with
    | given i =>
      rw [stackAt_given]
      split
      · rename_i inside
        rw [starts.fresh i inside]
        rfl
      · rfl
    | worker j =>
      rw [stackAt_worker, starts.alone j]
      rfl
  constructor
  · exact starts.size
  · constructor
    · intro place a noted
      rw [empty place] at noted
      cases noted
    · intro place _ a _ noted
      rw [empty place] at noted
      cases noted
  · intro i inside
    rw [starts.fresh i inside, Nat.zero_mod]
  · intro j w listed
    rw [starts.alone j] at listed
    cases listed
  · intro v
    rw [starts.image v]
    exact ⟨fun below => ⟨below, fun i => not_has_none (empty (.given i))⟩, And.left⟩
  · intro v
    rw [starts.image v]
    exact ⟨fun below => ⟨below, fun place => not_has_none (empty place)⟩, And.left⟩
  · exact used_workers fun i => empty (.given i)

theorem good_start (starts : Starts master m) : Good master (Owned.start master m) := by
  refine ⟨starts.base, starts.consistent, starts.root, fun p join waits group _ => ?_,
    .inl ⟨starts.live, starts.layout⟩⟩
  rw [show (Owned.start master m).m.joining p = none from starts.idle p group] at waits
  cases waits

/-- `inituvm` maps page 0 only. -/
theorem inituvm_entry {dir dir' : Pgdir} {code : Nat → UInt8}
    (ran : inituvm mem dir code = .ok (mem', dir')) (v : Nat) (other : v ≠ 0) :
    dir'.entry v = dir.entry v := by
  unfold inituvm at ran
  split at ran
  · cases ran
  rw [bind_eq_ok] at ran
  obtain ⟨⟨mem₁, dir₁, done⟩, mapped, ran⟩ := ran
  cases ran
  cases done with
  | false => exact ((mappages_spec mapped).2 rfl).2 v
  | true => rw [((mappages_spec mapped).1 rfl).2.2 v, if_neg other]

/-- The first process has one page and no threads. -/
theorem starts_boot {code : Nat → UInt8} (nodup : mem.freelist.Nodup)
    (enough : bootSupply ≤ mem.freelist.length) (booted : userinit (Kernel.boot mem) code = .ok k)
    (isInit : k.initproc = some p) : Starts p (Machine.start k) := by
  obtain ⟨v, u, p', m₁, d, dir, m₂, dir₂, table, _, allocated, setup, initialized,
      isInit', _, pgdirs,
    _, proc⟩ := userinit_eq booted
  rw [isInit] at isInit'
  cases isInit'
  have lone := lone_boot nodup booted isInit
  have size : (k.proc p).sz = PGSIZE := by
    rw [proc, update_self]
  have entries : ∀ w, entryOf k p w = dir₂.entry w := by
    apply entryOf_eq (d := d)
    · rw [proc, update_self]
    · rw [pgdirs, update_self]
  refine ⟨lone, (consistent_userinit [] nodup booted).1, ?_, ?_, ?_⟩
  · intro i _
    show (k.proc p).freeusrspace i = 0
    obtain ⟨_, _, _, _, _, _, _, booted⟩ := userinit_slot booted
    rw [booted, update_apply]
    split
    all_goals rfl
  · show 0 < (k.proc p).sz ∧ (k.proc p).sz < KERNBASE
    rw [size]
    decide
  intro w
  show (entryOf k p w).isSome ↔ w < pages (k.proc p).sz
  have covers := ((sized_userinit enough nodup booted).fits p lone.live).2 d dir₂
    (by rw [proc, update_self]) (by rw [pgdirs, update_self])
  rw [size] at covers ⊢
  rw [entries w]
  constructor
  · intro there
    by_contra above
    have outside := inituvm_entry initialized w
      (by intro zero; rw [zero] at above; exact above (by decide))
    rw [outside, Pgdir.entry, (setupkvm_spec setup).2.1] at there
    cases there
  · intro below
    exact isSome_iff_ne_none.mpr (covers w below)

/-- For each run of calls by the members of one group, in which new stacks start at pages and `sbrk`
leaves the stacks, the mapped pages are those of the image and the heap and those of the stacks,
`thread_create` maps only pages that were not mapped, `thread_join` unmaps only the stack of the
thread, and `sbrk` leaves the stacks of threads alone. -/
theorem pages_partitioned {m : Machine} {events : List Event} {last : Owned}
    (starts : Starts master m)
    (within : Run.Steps (ownedStep master)
    (fun s => Within master s.m) (Owned.start master m) events) (careful :
    Run.Steps (ownedStep master) (fun s => Careful master s.m) (Owned.start master m) events)
    (run : Run.exec (ownedStep master) (Owned.start master m) events = some last) :
    Run.Steps (ownedStep master) (Frame master) (Owned.start master m) events ∧
      Partitioned last.m.k master last.heap := by
  have start := good_start starts
  have both := within.and careful
  have keeps : ∀ (s : Owned) (event : Event) (next : Owned), Good master s →
      Within master s.m event ∧ Careful master s.m event → ownedStep master s event = some next →
      Good master next :=
    fun s event next good allowed stepped => good_step good allowed.1 allowed.2 stepped
  constructor
  · refine Run.steps_of_invariant (Good master) keeps (fun s event good allowed next taken =>
      ?_) start both
    exact (phase_step good allowed.1 allowed.2 (map_eq_some_iff.mpr ⟨next, taken, rfl⟩)).2
  · have good := Run.exec_invariant (Good master) keeps start both run
    exact good.phase.partitioned good.base.grouped

/-- A thread is made above a heap of whole pages, ends, and leaves its stack to the next one; the
heap grows above the stack and shrinks again. -/
def stackRun : List Event :=
  [.dispatch 0, .sbrk 0 4096, .threadCreate 0 0, .dispatch 1, .sbrk 1 4096, .threadExit 1 7,
      .threadJoin 0 2,
    .threadCreate 0 0, .sbrk 0 (-4096)]

theorem pages_partitioned_small : ∃ k last, Starts 0 (Machine.start k) ∧
    Run.Steps (ownedStep 0) (fun s => Within 0 s.m) (Owned.start 0 (Machine.start k)) stackRun ∧
    Run.Steps (ownedStep 0) (fun s => Careful 0 s.m) (Owned.start 0 (Machine.start k)) stackRun ∧
    Run.exec (ownedStep 0) (Owned.start 0 (Machine.start k)) stackRun = some last ∧
    Run.Steps (ownedStep 0) (Frame 0) (Owned.start 0 (Machine.start k)) stackRun ∧
    Partitioned last.m.k 0 last.heap := by
  obtain ⟨k, last, booted, ends, isInit, both⟩ := run_small (ownedStep 0)
    (fun k => Owned.start 0 (Machine.start k)) stackRun (fun k _ => k.initproc = some 0 ∧
      Run.Steps (ownedStep 0) (fun s event => Within 0 s.m event ∧ Careful 0 s.m event)
        (Owned.start 0 (Machine.start k)) stackRun) (by decide +kernel)
  have starts := starts_boot smallMem_real.1.of_cons smallMem_real.2 booted isInit
  have within := both.mono fun _ _ allowed => allowed.1
  have careful := both.mono fun _ _ allowed => allowed.2
  exact ⟨k, last, starts, within, careful, ends, pages_partitioned starts within careful ends⟩

/-- The heap ends inside page 1. -/
def unalignedRun : List Event := [.dispatch 0, .sbrk 0 100]

/-- A thread has its stack in pages 1 and 2. -/
def threadRun : List Event := [.dispatch 0, .threadCreate 0 0]

/-- `thread_create` makes the last page of the heap its guard page, and `sbrk` unmaps the stack of a
thread that lives. -/
theorem owners_mixed :
    (afterBoot unalignedRun).map (fun m => (entryOf m.k 0 1).map Pte.user) = some (some true) ∧
    (afterBoot (unalignedRun ++ [.threadCreate 0 0])).map
      (fun m => (entryOf m.k 0 1).map Pte.user) = some (some false) ∧
    (afterBoot threadRun).map (fun m => ((m.k.proc 1).state, (entryOf m.k 0 1).isSome)) =
      some (.runnable, true) ∧
    (afterBoot (threadRun ++ [.sbrk 0 (-8192)])).map
      (fun m => ((m.k.proc 1).state, (entryOf m.k 0 1).isSome)) = some (.runnable, false) := by
  decide +kernel

end Xv6.Process.Stacks
