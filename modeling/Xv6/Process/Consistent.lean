import Xv6.Process.Group

/- Thread groups, address spaces and physical pages together: every group has an address space of
its own, and every page has one use. -/
namespace Xv6.Process

open Function Outcome Pool Vm List

variable {k t : Kernel} {proc : Nat → Proc} {p q np master d i : Nat} {reserved : List Nat}
    {dir dir' : Pgdir} {m mem : Mem} {done : Bool}

/-- A member of a group, or a slot that a group lists while it is set up. -/
def Enrolled (proc : Nat → Proc) (p : Nat) : Prop :=
  Settled (proc p).state ∨ ∃ m i, (proc m).workerthread i = some p

structure Spaces (k : Kernel) : Prop where
  rooted : ∀ p, Enrolled k.proc p → ∃ d dir, (k.proc p).pgdir = some d ∧ k.pgdirs d = some dir
  stacked : ∀ p, Enrolled k.proc p → (k.proc p).kstack ≠ none
  shared : ∀ m i w, (k.proc m).workerthread i = some w → (k.proc w).pgdir = (k.proc m).pgdir
  apart : ∀ p q, Settled (k.proc p).state → Settled (k.proc q).state → (k.proc p).master = none →
    (k.proc q).master = none → (k.proc p).pgdir = (k.proc q).pgdir → p = q

structure Consistent (reserved : List Nat) (k : Kernel) : Prop where
  grouped : Grouped k.proc
  spaces : Spaces k
  sound : k.Sound reserved

/-- A member has the directory of its master. -/
theorem Consistent.pgdir_masterOf (good : Consistent reserved k)
    (settled : Settled (k.proc p).state) :
    (k.proc p).pgdir = (k.proc (k.masterOf p)).pgdir := by
  unfold Kernel.masterOf
  cases link : (k.proc p).master with
  | none => rfl
  | some m => exact good.spaces.shared m _ p (good.grouped.link p m settled link)

/-- Processes with one directory are members of one group. -/
theorem Consistent.masterOf_eq (good : Consistent reserved k) (settled : Settled (k.proc p).state)
    (settled' : Settled (k.proc q).state) (same : (k.proc p).pgdir = (k.proc q).pgdir) :
    k.masterOf p = k.masterOf q := by
  obtain ⟨root, top⟩ := good.grouped.masterOf settled
  obtain ⟨root', top'⟩ := good.grouped.masterOf settled'
  apply good.spaces.apart _ _ root root' top top'
  rw [← good.pgdir_masterOf settled, ← good.pgdir_masterOf settled', same]

/-- Whoever has the directory of a master is in its group. -/
theorem Consistent.member_of_pgdir (good : Consistent reserved k)
    (settled : Settled (k.proc q).state) (settled' : Settled (k.proc p).state)
    (root : (k.proc p).master = none) (same : (k.proc q).pgdir = (k.proc p).pgdir) : q = p ∨
    q ∈ k.workers p := by
  have member := good.grouped.member settled
  rw [good.masterOf_eq settled settled' same, masterOf_self root] at member
  exact member

theorem Kernel.Sound.dir_taken (sound : k.Sound reserved) (present : k.pgdirs d = some dir) :
    d ∉ reserved ++ k.mem.freelist := by
  apply sound.apart (.space d .self)
  show (k.pgdirs d).bind _ = some d
  rw [present]
  rfl

theorem Kernel.Sound.not_free (sound : k.Sound reserved) (present : k.pgdirs d = some dir) :
    d ∉ k.mem.freelist :=
  fun free => sound.dir_taken present (mem_append_right reserved free)

section

variable (good : Consistent reserved k)
include good

/-- Ties and directories are as before. -/
theorem Consistent.ties (grouped : Grouped t.proc) (ties : ∀ q, SameTies (k.proc q) (t.proc q))
    (memory : SameMemory k t) (enrolled : ∀ q, Settled (t.proc q).state → Enrolled k.proc q) :
    Consistent reserved t := by
  have before : ∀ q, Enrolled t.proc q → Enrolled k.proc q := by
    rintro q (settled | ⟨m, i, listed⟩)
    · exact enrolled q settled
    · rw [(ties m).workerthread] at listed
      exact .inr ⟨m, i, listed⟩
  have root : ∀ q, Settled (t.proc q).state → (t.proc q).master = none →
      Settled (k.proc q).state := by
    intro q settled top
    rcases enrolled q settled with there | ⟨m, i, listed⟩
    · exact there
    · rw [(ties q).master, (good.grouped.list m i q listed).2.2.1] at top
      cases top
  refine ⟨grouped, ⟨?_, ?_, ?_, ?_⟩, good.sound.same memory.mem memory.pgdirs ties⟩
  · intro q inUse
    rw [(ties q).pgdir, memory.pgdirs]
    exact good.spaces.rooted q (before q inUse)
  · intro q inUse
    rw [(ties q).kstack]
    exact good.spaces.stacked q (before q inUse)
  · intro m i w listed
    rw [(ties m).workerthread] at listed
    rw [(ties w).pgdir, (ties m).pgdir]
    exact good.spaces.shared m i w listed
  · intro p q settled settled' top top' same
    have first := root p settled top
    have second := root q settled' top'
    rw [(ties p).master] at top
    rw [(ties q).master] at top'
    rw [(ties p).pgdir, (ties q).pgdir] at same
    exact good.spaces.apart p q first second top top' same

theorem Consistent.moves (ties : ∀ q, SameTies (k.proc q) (t.proc q)) (memory : SameMemory k t)
    (moves : ∀ q, Moves (k.proc q).state (t.proc q).state) : Consistent reserved t := by
  apply good.ties (good.grouped.moves ties moves) ties memory
  exact fun q settled => .inl ((moves q).used.2.1.mp settled)

theorem Consistent.set {new : Proc} (ties : SameTies (k.proc p) new)
    (moves : Moves (k.proc p).state new.state) : Consistent reserved (k.setProc p new) :=
  good.moves (fun _ => SameTies.set (SameTies.refl _) ties) (setProc_memory k p new)
    (setProc_moves moves)

theorem consistent_wakeup1 (chan : Option Chan) : Consistent reserved (wakeup1 k chan) := by
  have each := wakeup1_ties k chan
  exact good.moves (fun q => (each q).1) (wakeup1_memory k chan) fun q => moves_of_woken (each q).2

theorem consistent_kill (pid : Nat) : Consistent reserved (kill k pid).1 :=
  good.moves (kill_ties k pid) (kill_only k pid).memory fun q => moves_of_woken (kill_steady q).2

theorem Consistent.ends {gone : Nat → Prop} {head : Nat} (ends : Ended gone head k t) :
    Consistent reserved t := by
  apply good.ties (good.grouped.ends ends) ends.ties ends.memory
  intro q after
  by_cases leaves : gone q
  · exact ends.enrolled q leaves
  · exact .inl ((moves_of_woken (ends.others q leaves)).used.2.1.mp after)

theorem consistent_exit (settled : Settled (k.proc p).state) (ran : exit k p = .ok t) :
    Consistent reserved t :=
  good.ends (ended_exit good.grouped settled ran)

theorem consistent_thread_exit {retval : Nat} (live : Live (k.proc p).state)
    (ran : thread_exit k p retval = .ok t) : Consistent reserved t := by
  obtain ⟨link, ran⟩ | ⟨master, link⟩ := thread_exit_cases ran
  · exact consistent_exit good live.settled ran
  · exact good.ends (ended_thread_exit good.grouped live link ran)

/-- A slot outside of all groups changes. If it is settled now it is a group of its own, with a new
directory. -/
theorem Consistent.slot {new : Proc} (empty : ∀ i, (k.proc p).workerthread i = none)
    (unlisted : Unlisted k.proc p)
    (proc : t.proc = update k.proc p new) (sound : t.Sound reserved)
    (lists : new.workerthread = (k.proc p).workerthread)
    (pgdirs : ∀ q d dir, q ≠ p → Enrolled k.proc q → (k.proc q).pgdir = some d →
      k.pgdirs d = some dir → t.pgdirs d = some dir)
    (own : Settled new.state → new.master = none ∧ new.kstack ≠ none ∧ ∃ d dir, new.pgdir = some d ∧
      t.pgdirs d = some dir ∧ ∀ q, Enrolled k.proc q → (k.proc q).pgdir ≠ some d) :
    Consistent reserved t := by
  have here : t.proc p = new := by
    rw [proc, update_self]
  have table : ∀ q, q ≠ p → t.proc q = k.proc q := by
    intro q other
    rw [proc, update_of_ne other]
  have entry : ∀ m, (t.proc m).workerthread = (k.proc m).workerthread := by
    intro m
    by_cases isSlot : m = p
    · rw [isSlot, here, lists]
    · rw [table m isSlot]
  have members : ∀ m i w, (k.proc m).workerthread i = some w → m ≠ p ∧ w ≠ p := by
    intro m i w listed
    constructor
    · intro equal
      rw [equal, empty i] at listed
      cases listed
    · intro equal
      rw [equal] at listed
      exact unlisted m i listed
  have before : ∀ q, q ≠ p → Enrolled t.proc q → Enrolled k.proc q := by
    rintro q other (settled | ⟨m, i, listed⟩)
    · rw [table q other] at settled
      exact .inl settled
    · rw [entry] at listed
      exact .inr ⟨m, i, listed⟩
  have alone : Enrolled t.proc p → Settled new.state := by
    rintro (settled | ⟨m, i, listed⟩)
    · rw [here] at settled
      exact settled
    · rw [entry] at listed
      exact absurd listed (unlisted m i)
  refine ⟨?_, ⟨?_, ?_, ?_, ?_⟩, sound⟩
  · rw [proc]
    apply good.grouped.slot unlisted empty
    · intro i
      rw [lists, empty i]
    · exact fun settled => (own settled).1
  · intro q inUse
    by_cases isSlot : q = p
    · rw [isSlot] at inUse ⊢
      obtain ⟨_, _, d, dir, pgdir, present, _⟩ := own (alone inUse)
      rw [here]
      exact ⟨d, dir, pgdir, present⟩
    · have enrolled := before q isSlot inUse
      obtain ⟨d, dir, pgdir, present⟩ := good.spaces.rooted q enrolled
      rw [table q isSlot]
      exact ⟨d, dir, pgdir, pgdirs q d dir isSlot enrolled pgdir present⟩
  · intro q inUse
    by_cases isSlot : q = p
    · rw [isSlot] at inUse ⊢
      rw [here]
      exact (own (alone inUse)).2.1
    · rw [table q isSlot]
      exact good.spaces.stacked q (before q isSlot inUse)
  · intro m i w listed
    rw [entry] at listed
    rw [table w (members m i w listed).2, table m (members m i w listed).1]
    exact good.spaces.shared m i w listed
  · -- the new directory is nobody else's
    have distinct : ∀ q, q ≠ p → Settled (t.proc q).state → Settled (t.proc p).state →
        (t.proc q).pgdir ≠ (t.proc p).pgdir := by
      intro q other settled settled' same
      rw [here] at settled' same
      rw [table q other] at settled same
      obtain ⟨_, _, d, _, pgdir, _, fresh⟩ := own settled'
      rw [pgdir] at same
      exact fresh q (.inl settled) same
    intro a b settled settled' top top' same
    by_cases isA : a = p
    · by_cases isB : b = p
      · rw [isA, isB]
      · rw [isA] at settled same
        exact absurd same.symm (distinct b isB settled' settled)
    · by_cases isB : b = p
      · rw [isB] at settled' same
        exact absurd same (distinct a isA settled settled')
      · rw [table a isA] at settled top same
        rw [table b isB] at settled' top' same
        exact good.spaces.apart a b settled settled' top top' same

end

theorem Kernel.Sound.takeStack {frame : Nat} (sound : k.Sound reserved)
    (taken : kalloc k.mem = (m, some frame)) (mem : t.mem = m) (pgdirs : t.pgdirs = k.pgdirs)
    (stack : (t.proc p).kstack = some frame)
    (others : ∀ q, q ≠ p → (t.proc q).kstack = (k.proc q).kstack) :
    t.Sound reserved := by
  unfold Kernel.Sound at sound ⊢
  rw [(kalloc_some taken).1] at sound
  rw [mem, pgdirs]
  apply separate_forget (separate_takeStack sound p)
  intro q f used
  rw [update_apply]
  split
  · rename_i here
    rw [here, stack] at used
    exact used
  · rename_i other
    rw [others q other] at used
    exact used

section

variable (good : Consistent reserved k)
include good

theorem consistent_claim (unused : (k.proc p).state = .unused) :
    Consistent reserved (k.claim p) := by
  apply good.slot (p := p)
  · exact good.grouped.empty_of_unsettled fun settled => settled.1 unused
  · exact good.grouped.unlisted_of_unused unused
  · exact claim_proc k p
  · apply good.sound.same
    · rfl
    · rfl
    · exact fun q => SameTies.set (SameTies.refl _) ⟨rfl, rfl, rfl, rfl, rfl⟩
  · rfl
  · exact fun _ _ _ _ _ _ present => present
  · exact fun settled => absurd rfl settled.2

theorem consistent_allocStack_false (embryo : (k.proc p).state = .embryo)
    (unlisted : Unlisted k.proc p) (ran : k.allocStack p = (t, false)) : Consistent reserved t := by
  rw [(allocStack_false ran).1]
  apply good.slot (p := p)
  · exact good.grouped.empty_of_unsettled fun settled => settled.2 embryo
  · exact unlisted
  · rfl
  · apply separate_forget good.sound
    intro q f used
    rw [setProc_proc, update_apply] at used
    split at used
    · cases used
    · exact used
  · rfl
  · exact fun _ _ _ _ _ _ present => present
  · exact fun settled => absurd rfl settled.1

theorem consistent_allocprocRest (embryo : (k.proc p).state = .embryo)
    (unlisted : Unlisted k.proc p) (ran : allocprocRest k p = (t, done)) :
    Consistent reserved t := by
  cases done with
  | false => exact consistent_allocStack_false good embryo unlisted (allocprocRest_false ran)
  | true =>
    obtain ⟨m, frame, taken, memory, level, fqtick, isstride, proc⟩ := allocprocRest_eq_true ran
    apply good.slot _ unlisted proc
    · apply good.sound.takeStack (p := p) taken memory.mem memory.pgdirs
      · rw [proc, update_self]
      · intro q other
        rw [proc, update_of_ne other]
    · rfl
    · intro q d dir _ _ _ present
      rw [memory.pgdirs]
      exact present
    · exact fun settled => absurd embryo settled.2
    · exact good.grouped.empty_of_unsettled fun settled => settled.2 embryo

/-- A fork that fails leaves nothing behind. -/
theorem consistent_forkRest_none (embryo : (k.proc np).state = .embryo)
    (unlisted : Unlisted k.proc np) (ran : forkRest k p np = .ok (t, none)) :
    Consistent reserved t := by
  obtain ⟨e, dir, m, _, _, ⟨copied, _, page, stack, same⟩ | ⟨d, new, _, impossible, _⟩⟩ :=
    forkRest_eq ran
  · have freed : (k.setMem m).Sound reserved := copyuvm_failed copied good.sound
    rw [same]
    apply good.slot (p := np)
    · exact good.grouped.empty_of_unsettled fun settled => settled.2 embryo
    · exact unlisted
    · rfl
    · apply freed.giveStack stack
      rfl
    · rfl
    · exact fun _ _ _ _ _ _ present => present
    · exact fun settled => absurd rfl settled.1
  · cases impossible

end

section

variable (sound : k.Sound reserved) (present : k.pgdirs d = some dir) (v : Nat) (pte : Pte)
    (found : dir.entry v = some pte)
include sound present v pte found

theorem Kernel.Sound.page_taken : pte.frame ∉ reserved ++ k.mem.freelist := by
  apply sound.apart (.space d (.page v))
  show (k.pgdirs d).bind _ = some pte.frame
  rw [present]
  show (dir.entry v).map Pte.frame = some pte.frame
  rw [found]
  rfl

theorem Kernel.Sound.page_not_free : pte.frame ∉ k.mem.freelist :=
  fun free => sound.page_taken present v pte found (mem_append_right reserved free)

end

section

variable (good : Consistent reserved k)
include good

theorem Consistent.fresh (free : d ∈ k.mem.freelist) (enrolled : Enrolled k.proc q) :
    (k.proc q).pgdir ≠ some d := by
  intro equal
  obtain ⟨d', dir, pgdir, present⟩ := good.spaces.rooted q enrolled
  rw [equal] at pgdir
  cases pgdir
  exact good.sound.not_free present free

/-- The child of a fork has an address space of its own. -/
theorem consistent_forkRest_some {made : Nat} (embryo : (k.proc np).state = .embryo)
    (unlisted : Unlisted k.proc np) (root : (k.proc np).master = none)
    (stack : (k.proc np).kstack ≠ none) (ran : forkRest k p np = .ok (t, some made)) :
    Consistent reserved t := by
  obtain ⟨e, dir, m, _, present, ⟨_, impossible, _⟩ | ⟨d, new, copied, _, same⟩⟩ := forkRest_eq ran
  · cases impossible
  obtain ⟨owned, _, free, _⟩ := copyuvm_spec copied good.sound
    (good.sound.page_not_free present)
  rw [same]
  apply good.slot (p := np)
  · exact good.grouped.empty_of_unsettled fun settled => settled.2 embryo
  · exact unlisted
  · rfl
  · have joined := separate_join owned
    apply separate_forget joined
    intro q f used
    rw [setProc_proc, update_apply] at used
    split at used
    · rename_i here
      rw [here]
      exact used
    · exact used
  · rfl
  · intro q e dir _ enrolled pgdir present
    show update k.pgdirs d (some new) e = some dir
    rw [update_of_ne, present]
    intro equal
    rw [equal] at pgdir
    exact good.fresh free enrolled pgdir
  · intro _
    refine ⟨root, stack, d, new, rfl, update_self _ _ _, ?_⟩
    exact fun q enrolled => good.fresh free enrolled

/-- A new worker shares the address space of its master. -/
theorem consistent_allocthreadRest (embryo : (k.proc np).state = .embryo)
    (unlisted : Unlisted k.proc np) (root : (k.proc master).master = none)
    (settled : Settled (k.proc master).state) (alive : (k.proc master).state ≠ .zombie)
    (ran : allocthreadRest k master np = .ok (t, done)) :
    Consistent reserved t := by
  have different : np ≠ master := by
    intro equal
    rw [equal] at embryo
    exact settled.2 embryo
  cases done with
  | false => exact consistent_allocStack_false good embryo unlisted (allocthreadRest_false ran)
  | true =>
    obtain ⟨m, frame, i, taken, inside, free, same⟩ := allocthreadRest_eq_true ran different
    have table : t.proc = enlisted k.proc master np i frame := by
      rw [same]
      rfl
    have own : t.proc np = recruit (k.proc np) (k.proc master) frame master i := by
      rw [table, enlisted_new]
    have others : ∀ q, q ≠ np → (t.proc q).state = (k.proc q).state ∧
        (t.proc q).master = (k.proc q).master ∧ (t.proc q).pgdir = (k.proc q).pgdir ∧
        (t.proc q).kstack = (k.proc q).kstack := by
      intro q other
      obtain ⟨state, link, _, rest⟩ := enlisted_other frame k.proc master i other
      rw [table]
      exact ⟨state, link, rest⟩
    have lists : ∀ m j w, (t.proc m).workerthread j = some w → m = master ∧ j = i ∧ w = np ∨
        m ≠ np ∧ w ≠ np ∧ (k.proc m).workerthread j = some w := by
      intro m j w listed
      rw [table] at listed
      exact good.grouped.enlisted_list frame embryo unlisted settled free listed
    have pgdirs : t.pgdirs = k.pgdirs := by
      rw [same]
      rfl
    have old : ∀ q, Settled (t.proc q).state → q ≠ np := by
      intro q inUse equal
      rw [equal, own] at inUse
      exact inUse.2 embryo
    have enrolled : ∀ q, q ≠ np → Enrolled t.proc q → Enrolled k.proc q := by
      rintro q other (there | ⟨m, j, listed⟩)
      · rw [(others q other).1] at there
        exact .inl there
      · rcases lists m j q listed with ⟨_, _, equal⟩ | ⟨_, _, before⟩
        · exact absurd equal other
        · exact .inr ⟨m, j, before⟩
    refine ⟨?_, ⟨?_, ?_, ?_, ?_⟩, ?_⟩
    · rw [table]
      exact good.grouped.enlist frame embryo unlisted root settled alive inside free
    · intro q inUse
      rw [pgdirs]
      by_cases isNew : q = np
      · rw [isNew, own]
        exact good.spaces.rooted master (.inl settled)
      · rw [(others q isNew).2.2.1]
        exact good.spaces.rooted q (enrolled q isNew inUse)
    · intro q inUse
      by_cases isNew : q = np
      · rw [isNew, own]
        exact Option.some_ne_none frame
      · rw [(others q isNew).2.2.2]
        exact good.spaces.stacked q (enrolled q isNew inUse)
    · intro m j w listed
      rcases lists m j w listed with ⟨isMaster, _, isNew⟩ | ⟨masterOther, notNew, before⟩
      · rw [isMaster, isNew, own, (others master different.symm).2.2.1]
        rfl
      · rw [(others w notNew).2.2.1, (others m masterOther).2.2.1]
        exact good.spaces.shared m j w before
    · intro a b settledA settledB
      obtain ⟨stateA, linkA, pgdirA, _⟩ := others a (old a settledA)
      obtain ⟨stateB, linkB, pgdirB, _⟩ := others b (old b settledB)
      rw [stateA] at settledA
      rw [stateB] at settledB
      rw [linkA, linkB, pgdirA, pgdirB]
      exact good.spaces.apart a b settledA settledB
    · apply good.sound.takeStack (p := np) taken
      · rw [same]
        rfl
      · exact pgdirs
      · rw [own]
        rfl
      · exact fun q other => (others q other).2.2.2

/-- A step inside of one address space. -/
theorem Consistent.space (present : k.pgdirs d = some dir) (tidy : Vm.Tidy k.mem dir mem dir') :
    Consistent reserved ((k.setMem mem).setDir d (some dir')) := by
  refine ⟨good.grouped, ⟨?_, good.spaces.stacked, good.spaces.shared, good.spaces.apart⟩, ?_⟩
  · intro p enrolled
    obtain ⟨e, other, pgdir, present⟩ := good.spaces.rooted p enrolled
    by_cases same : e = d
    · rw [same] at pgdir
      exact ⟨d, dir', pgdir, update_self _ _ _⟩
    · refine ⟨e, other, pgdir, ?_⟩
      show update k.pgdirs d (some dir') e = some other
      rw [update_of_ne same, present]
  · exact separate_space good.sound present tidy

theorem Consistent.bytes (same : mem.freelist = k.mem.freelist) :
    Consistent reserved (k.setMem mem) := by
  refine ⟨good.grouped, ⟨good.spaces.rooted, good.spaces.stacked, good.spaces.shared,
      good.spaces.apart⟩, ?_⟩
  show Separate (reserved ++ mem.freelist) _
  rw [same]
  exact good.sound

theorem consistent_allocusrstack (different : np ≠ master)
    (ran : allocusrstack k master np = .ok (t, done)) :
    Consistent reserved t := by
  obtain ⟨d, dir, mem, dir₁, sz, _, present, allocated, cases⟩ := allocusrstack_eq ran different
  have tidy := (allocuvm_spec allocated).1
  rcases cases with ⟨_, _, same⟩ | ⟨_, _, dir₂, cleared, same⟩
  · rw [same]
    apply (good.space present tidy).set
    · exact ⟨rfl, rfl, rfl, rfl, rfl⟩
    · exact .inl rfl
  have lent := (lend_resized (k.proc master) sz).ties
  have spaced := good.space present (tidy.trans (clearpteu_spec cleared).1)
  have first := spaced.set (p := master) lent.1 (.inl lent.2)
  rw [same]
  apply first.set
  · rw [setProc_of_ne different]
    exact ⟨rfl, rfl, rfl, rfl, rfl⟩
  · rw [setProc_of_ne different]
    exact .inl rfl

theorem consistent_threadRest {arg : Nat} {made : Option Nat} (embryo : (k.proc np).state = .embryo)
    (listed : (k.proc master).workerthread i = some np)
    (ran : threadRest k master np arg = .ok (t, made)) :
    Consistent reserved t := by
  have different : np ≠ master := good.grouped.ne_master listed
  obtain ⟨u, done, mem, allocated, bytes, cases⟩ := threadRest_eq ran
  have good' := consistent_allocusrstack good different allocated
  have kept := fun q => (allocusrstack_resized allocated different q).ties
  have filled := good'.bytes bytes
  rcases cases with ⟨_, same⟩ | ⟨_, _, same⟩
  · rw [same]
    exact filled
  rw [same]
  have ties : ∀ q, SameTies ((u.setMem mem).proc q)
      (((u.setMem mem).setProc np { u.proc np with state := .runnable }).proc q) :=
    fun q => SameTies.set (SameTies.refl _) ⟨rfl, rfl, rfl, rfl, rfl⟩
  have there : (u.proc master).workerthread i = some np := by
    rw [(kept master).1.workerthread]
    exact listed
  have state : ∀ q, q ≠ np →
      (((u.setMem mem).setProc np { u.proc np with state := .runnable }).proc q).state =
        (u.proc q).state := by
    intro q other
    rw [setProc_of_ne other]
    rfl
  apply filled.ties _ ties (setProc_memory _ np _)
  · intro q settled
    by_cases here : q = np
    · rw [here]
      exact .inr ⟨master, i, there⟩
    · rw [state q here] at settled
      exact .inl settled
  · apply filled.grouped.start ((kept np).2.trans embryo) there ties state
    rw [setProc_self]
    exact .inr rfl

/-- Members of a group leave their slots. -/
theorem Consistent.retire (grouped : Grouped t.proc) (sound : t.Sound reserved) (gone : Nat → Prop)
    (unused : ∀ w, gone w → (t.proc w).state = .unused) (unlisted : ∀ w, gone w → Unlisted t.proc w)
    (kept : ∀ q, ¬ gone q → (t.proc q).state = (k.proc q).state ∧
      (t.proc q).master = (k.proc q).master ∧ (t.proc q).pgdir = (k.proc q).pgdir ∧
      (t.proc q).kstack = (k.proc q).kstack)
    (lists : ∀ m i w, (t.proc m).workerthread i = some w → (k.proc m).workerthread i = some w)
    (pgdirs : ∀ q d dir, Enrolled k.proc q → ¬ gone q → (k.proc q).pgdir = some d →
      k.pgdirs d = some dir → ∃ dir', t.pgdirs d = some dir') : Consistent reserved t := by
  have stays : ∀ q, Enrolled t.proc q → ¬ gone q ∧ Enrolled k.proc q := by
    rintro q (settled | ⟨m, i, listed⟩)
    · have there : ¬ gone q := fun leaves => settled.1 (unused q leaves)
      rw [(kept q there).1] at settled
      exact ⟨there, .inl settled⟩
    · exact ⟨fun leaves => unlisted q leaves m i listed, .inr ⟨m, i, lists m i q listed⟩⟩
  have remains : ∀ q, Settled (t.proc q).state → ¬ gone q := fun q settled =>
    (stays q (.inl settled)).1
  refine ⟨grouped, ⟨?_, ?_, ?_, ?_⟩, sound⟩
  · intro q enrolled
    obtain ⟨there, before⟩ := stays q enrolled
    obtain ⟨d, dir, pgdir, present⟩ := good.spaces.rooted q before
    obtain ⟨dir', present'⟩ := pgdirs q d dir before there pgdir present
    rw [(kept q there).2.2.1]
    exact ⟨d, dir', pgdir, present'⟩
  · intro q enrolled
    obtain ⟨there, before⟩ := stays q enrolled
    rw [(kept q there).2.2.2]
    exact good.spaces.stacked q before
  · intro m i w listed
    rw [(kept w (stays w (.inr ⟨m, i, listed⟩)).1).2.2.1,
      (kept m (remains m (grouped.top m i w listed).1)).2.2.1]
    exact good.spaces.shared m i w (lists m i w listed)
  · intro a b settled settled'
    obtain ⟨state, link, pgdir, _⟩ := kept a (remains a settled)
    obtain ⟨state', link', pgdir', _⟩ := kept b (remains b settled')
    rw [state] at settled
    rw [state'] at settled'
    rw [link, link', pgdir, pgdir']
    exact good.spaces.apart a b settled settled'

/-- `wait` frees the pages of a whole group. -/
theorem consistent_wait {progress : Progress} (live : Live (k.proc p).state)
    (ran : wait k p = .ok (t, progress)) : Consistent reserved t := by
  have grouped := grouped_wait good.grouped live ran
  rcases wait_eq ran with ⟨_, same⟩ | ⟨_, same⟩ |
    ⟨c, u, page, d, dir, mem, found, reclaim, stack, pgdir, present, freed, _, same⟩
  · rw [same]
    exact good
  · rw [same]
    apply good.set
    · exact ⟨rfl, rfl, rfl, rfl, rfl⟩
    · exact .inr ⟨live, .inr (.inr rfl)⟩
  obtain ⟨_, _, root, zombie⟩ := deadChild_spec found
  obtain ⟨sound, pgdirs, _, child, _, _⟩ := reclaimWorkers_eq reclaim
    fun i w listed => good.grouped.ne_master listed
  obtain ⟨gone, others⟩ := wait_found good.grouped found ran
  have unused : ∀ q, q = c ∨ q ∈ k.workers c → (t.proc q).state = .unused :=
    fun q leaves => (gone q leaves).1
  apply good.retire grouped _ fun q => q = c ∨ q ∈ k.workers c
  · exact unused
  · exact fun q leaves => grouped.unlisted_of_unused (unused q leaves)
  · intro q stays
    rw [others q stays]
    exact ⟨rfl, rfl, rfl, rfl⟩
  · intro m i w listed
    by_cases leaves : m = c ∨ m ∈ k.workers c
    · exact absurd (unused m leaves) (grouped.top m i w listed).1.1
    · rw [others m leaves] at listed
      exact listed
  · intro q e dir' enrolled stays pgdir' present'
    refine ⟨dir', ?_⟩
    rw [same]
    show update u.pgdirs d none e = some dir'
    rw [update_of_ne, pgdirs, present']
    intro equal
    have isChild : (k.proc c).pgdir = some d := by
      rw [child] at pgdir
      exact pgdir
    have settled' : Settled (k.proc c).state := by
      rw [zombie]
      decide
    have rooted : ∀ q, Settled (k.proc q).state → (k.proc q).pgdir = some d → q = c ∨
      q ∈ k.workers c :=
      fun q settled has => good.member_of_pgdir settled settled' root (has.trans isChild.symm)
    rw [equal] at pgdir'
    rcases enrolled with settled | ⟨m, i, listed⟩
    · exact stays (rooted q settled pgdir')
    rw [good.spaces.shared m i q listed] at pgdir'
    rcases rooted m (good.grouped.top m i q listed).1 pgdir' with isMaster | isWorker
    · rw [isMaster] at listed
      exact stays (.inr (good.grouped.mem_workers.mpr ⟨i, listed⟩))
    · obtain ⟨j, listed'⟩ := good.grouped.mem_workers.mp isWorker
      have none := good.grouped.empty_of_worker (good.grouped.list c j m listed').2.2.1 i
      rw [listed] at none
      cases none
  · have given := (sound reserved good.sound).giveStack stack
      (rfl : ({ u.proc c with kstack := none } : Proc).kstack = none)
    have freeing := separate_freevm given present freed
    rw [same]
    apply separate_forget freeing
    intro q f used
    rw [setProc_proc, update_apply] at used ⊢
    split at used
    · cases used
    · rename_i other
      rw [if_neg other]
      exact used

/-- `thread_join` frees the pages of a worker, when there is a place for its stack in `freeusrspace`
and the stack is not at address 0. -/
theorem consistent_joinLoop {join : Nat} {progress : Progress} (live : Live (k.proc p).state)
    (freed : (k.proc join).state = .zombie → ∀ u, deallocstack k join ≠ .ok (u, false))
    (ran : joinLoop k p join = .ok (t, progress)) : Consistent reserved t := by
  have grouped := grouped_joinLoop good.grouped live ran
  rcases joinLoop_eq ran with ⟨_, _, same⟩ | ⟨zombie, _, failed⟩ |
    ⟨zombie, u, master, worked, link, _, same⟩
  · rw [same]
    apply good.set
    · exact ⟨rfl, rfl, rfl, rfl, rfl⟩
    · exact .inr ⟨live, .inr (.inr rfl)⟩
  · exact absurd failed (freed zombie t)
  obtain ⟨page, master', stack, link', cases⟩ := deallocstack_eq worked
  rw [link] at link'
  cases link'
  rcases cases with ⟨impossible, _⟩ | ⟨i, d, dir, mem, dir', sz, _, _, pgdir, present,
      unmapped, _, made⟩
  · cases impossible
  have tidy := (deallocuvm_spec unmapped).1
  have listed := good.grouped.link join master (by rw [zombie]; decide) link
  have different : join ≠ master := good.grouped.ne_master listed
  have own : (t.proc join).state = .unused ∧ (t.proc join).kstack = none := by
    rw [same, setProc_self]
    exact ⟨rfl, rfl⟩
  have others : ∀ q, q ≠ join → (t.proc q).state = (k.proc q).state ∧
      (t.proc q).master = (k.proc q).master ∧ (t.proc q).pgdir = (k.proc q).pgdir ∧
      (t.proc q).kstack = (k.proc q).kstack := by
    intro q other
    rw [same, setProc_of_ne other, setProc_proc, update_apply]
    split
    · rename_i here
      rw [here, made, setProc_self]
      exact ⟨rfl, rfl, rfl, rfl⟩
    · rename_i notMaster
      rw [made, setProc_of_ne notMaster]
      exact ⟨rfl, rfl, rfl, rfl⟩
  have pgdirs : t.pgdirs = update k.pgdirs d (some dir') := by
    rw [same, made]
    rfl
  apply good.retire grouped _ (· = join)
  · intro q isJoin
    rw [isJoin]
    exact own.1
  · intro q isJoin
    rw [isJoin]
    exact grouped.unlisted_of_unused own.1
  · exact others
  · intro m j w held
    have notJoin : m ≠ join := by
      intro equal
      have settled := (grouped.top m j w held).1
      rw [equal] at settled
      exact settled.1 own.1
    rw [same, setProc_of_ne notJoin, setProc_proc, update_apply] at held
    split at held
    · rename_i here
      dsimp only at held
      rw [update_apply] at held
      split at held
      · cases held
      · rw [made, setProc_self] at held
        rw [here]
        exact held
    · rename_i notMaster
      rw [made, setProc_of_ne notMaster] at held
      exact held
  · intro q e found _ _ _ there
    rw [pgdirs, update_apply]
    split
    · exact ⟨dir', rfl⟩
    · exact ⟨found, there⟩
  · have given := good.sound.giveStack stack
      (rfl : ({ k.proc join with kstack := none } : Proc).kstack = none)
    have moved := separate_space given present tidy
    have memory : t.mem = mem := by
      rw [same, made]
      rfl
    unfold Kernel.Sound
    rw [memory, pgdirs]
    apply separate_forget moved
    intro q f used
    rw [setProc_proc, update_apply]
    split
    · rename_i here
      rw [here, own.2] at used
      cases used
    · rename_i other
      rw [(others q other).2.2.2] at used
      exact used

end

theorem Kernel.boot_consistent (m : Mem) (nodup : (reserved ++ m.freelist).Nodup) :
    Consistent reserved (Kernel.boot m) := by
  have unsettled : ∀ p, ¬ Settled ((Kernel.boot m).proc p).state := fun _ settled => settled.1 rfl
  have nobody : ∀ p, ¬ Enrolled (Kernel.boot m).proc p := by
    rintro p (settled | ⟨_, _, listed⟩)
    · exact unsettled p settled
    · cases listed
  refine ⟨⟨?_, ?_, ?_, ?_⟩, ⟨?_, ?_, ?_, ?_⟩, ⟨nodup, ?_, ?_⟩⟩
  · exact fun w _ settled => absurd settled (unsettled w)
  · exact fun _ _ _ listed => nomatch listed
  · exact fun _ _ _ listed => nomatch listed
  · exact fun _ _ _ listed => nomatch listed
  · exact fun p enrolled => absurd enrolled (nobody p)
  · exact fun p enrolled => absurd enrolled (nobody p)
  · exact fun _ _ _ listed => nomatch listed
  · exact fun p _ settled => absurd settled (unsettled p)
  · intro use f used
    cases use with
    | kstack p => cases used
    | space d use => cases used
  · intro use _ f used
    cases use with
    | kstack p => cases used
    | space d use => cases used

theorem inituvm_owned {O : Type} [DecidableEq O] {outer : O → Option Nat} {m' : Mem}
    {code : Nat → UInt8} (ran : inituvm m dir code = .ok (m', dir'))
    (owned : Owned outer reserved m d dir) :
    Owned outer reserved m' d dir' := by
  unfold inituvm at ran
  split at ran
  · cases ran
  rename_i rest frame taken
  obtain ⟨⟨m₁, dir₁, done⟩, mapped, ran⟩ := bind_eq_ok.mp ran
  cases ran
  have inHand : Owned outer (frame :: reserved) rest d dir := by
    unfold Owned at owned ⊢
    rw [(kalloc_some taken).1] at owned
    exact owned.perm perm_middle
  obtain ⟨works, fails⟩ := mappages_spec mapped
  cases done with
  | true => exact (works rfl).1 O outer reserved d inHand
  | false =>
    have kept := (fails rfl).1 O outer (frame :: reserved) d inHand
    exact Separate.sublist kept (sublist_cons_self frame (reserved ++ m₁.freelist))

theorem consistent_allocproc (good : Consistent reserved k) (ran : allocproc k = (t, some np)) :
    Consistent reserved t ∧ (t.proc np).state = .embryo ∧ Unlisted t.proc np ∧
      (t.proc np).kstack ≠ none ∧
    (t.proc np).master = (k.proc np).master ∧ (np < NPROC ∧ (k.proc np).state = .unused) ∧
    ∀ q, q ≠ np → t.proc q = k.proc q := by
  unfold allocproc at ran
  split at ran
  · cases ran
  rename_i p found
  obtain ⟨inside, unused⟩ := unusedSlot_spec found
  split at ran
  · cases ran
  rename_i u allocated
  cases ran
  have claimed := consistent_claim good unused
  have embryo : ((k.claim np).proc np).state = .embryo := by
    rw [claim_proc, update_self]
  have unlisted : Unlisted (k.claim np).proc np := by
    intro m i listed
    apply good.grouped.unlisted_of_unused unused m i
    rw [claim_proc, update_apply] at listed
    split at listed
    · rename_i here
      rw [here]
      exact listed
    · exact listed
  obtain ⟨m, frame, taken, memory, level, fqtick, isstride, proc⟩ := allocprocRest_eq_true allocated
  have result := consistent_allocprocRest claimed embryo unlisted allocated
  refine ⟨result, ?_, ?_, ?_, ?_, ⟨inside, unused⟩, ?_⟩
  · rw [proc, update_self]
    exact embryo
  · intro m i listed
    apply unlisted m i
    rw [proc, update_apply] at listed
    split at listed
    · rename_i here
      rw [here]
      exact listed
    · exact listed
  · rw [proc, update_self]
    exact Option.some_ne_none frame
  · rw [proc, update_self, claim_proc, update_self]
  · intro q other
    rw [proc, update_of_ne other, claim_proc, update_of_ne other]

/-- After `userinit` there is one process, with an address space of its own. -/
theorem consistent_userinit (reserved : List Nat) {code : Nat → UInt8}
    (nodup : (reserved ++ m.freelist).Nodup) (booted : userinit (Kernel.boot m) code = .ok k) :
    Consistent reserved k ∧
    ∃ p < NPROC, k.initproc = some p ∧ (k.proc p).state = .runnable ∧ (k.proc p).master = none ∧
      ∀ q, q ≠ p → (k.proc q).state = .unused := by
  obtain ⟨v, u, p, m₁, d, dir, m₂, dir₂, table, memory, allocated, setup, initialized, isInit, mem,
    pgdirs, _, proc⟩ := userinit_eq booted
  have empty := Kernel.boot_consistent m nodup
  have before : Consistent reserved v := by
    apply empty.moves _ memory
    · intro q
      rw [table]
      exact .inl rfl
    · intro q
      rw [table]
      exact SameTies.refl _
  obtain ⟨good, embryo, unlisted, stack, root, ⟨inside, _⟩, others⟩ :=
    consistent_allocproc before allocated
  obtain ⟨owns, tables, spent, free⟩ := setupkvm_spec setup
  have owned := inituvm_owned initialized (owns _ _ reserved good.sound)
  rw [table] at root others
  refine ⟨?_, p, inside, isInit, ?_, ?_, ?_⟩
  · apply good.slot (p := p) _ unlisted proc
    · have joined := separate_join owned
      unfold Kernel.Sound
      rw [mem, pgdirs]
      apply separate_forget joined
      intro q f used
      rw [proc, update_apply] at used
      split at used
      · rename_i here
        rw [here]
        exact used
      · exact used
    · rfl
    · intro q e found _ enrolled pgdir present
      rw [pgdirs, update_of_ne, present]
      intro equal
      rw [equal] at pgdir
      exact good.fresh free enrolled pgdir
    · intro _
      refine ⟨root, stack, d, dir₂, rfl, ?_, ?_⟩
      · rw [pgdirs]
        exact update_self _ _ _
      · exact fun q enrolled => good.fresh free enrolled
    · exact good.grouped.empty_of_unsettled fun settled => settled.2 embryo
  · rw [proc, update_self]
  · rw [proc, update_self]
    exact root
  · intro q other
    rw [proc, update_of_ne other, others q other]
    rfl

theorem smallMem_nodup : smallMem.freelist.Nodup := by
  unfold smallMem
  generalize 512 = pages
  exact List.Nodup.map (fun _ _ => Nat.add_right_cancel) nodup_range

end Xv6.Process
