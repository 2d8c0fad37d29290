import Xv6.Descriptors.Model
import Xv6.Vm.Copyout

/- The thread calls where they fail: ids that name no thread of the caller, and a group, a table or
a memory that is full. -/
namespace Xv6.Process.Failures

open Function Outcome Vm Calls Descriptors Option List

variable {k t : Kernel} {p master : Nat} {thread : Int}
    {mem mem' : Mem} {dir dir' dir'' : Pgdir} {frame d s sz np : Nat}

/-- Any `int` may be the id. -/
def slotOfId (k : Kernel) (thread : Int) : Option Nat :=
  Scan.first (fun p => ((k.proc p).pid : Int) == thread) NPROC 0

/-- `thread_join` up to its first sleep. -/
def thread_join_int (k : Kernel) (curproc : Nat) (thread : Int) : Except Stop (Kernel × Progress) :=
  match slotOfId k thread with
  -- the loop ends behind the table
  | none => .error .undefined
  | some p =>
    if (k.proc p).state = .unused then .ok (k, .returned (some 0)) else joinLoop k curproc p

theorem thread_join_int_pid (k : Kernel) (curproc pid : Nat) :
    thread_join_int k curproc pid = thread_join k curproc pid := by
  have same : slotOfId k pid = k.slotOf pid := by
    unfold slotOfId Kernel.slotOf
    congr 1
    funext p
    rw [Bool.eq_iff_iff, beq_iff_eq, beq_iff_eq]
    omega
  unfold thread_join_int thread_join
  rewrite [same]
  rfl

/-- The entries of the table that are read through `p`, `join` and `p->master`; `none` stands for a
pointer that is null or points behind the table. -/
def inspected (k : Kernel) (thread : Int) : List (Option Nat) :=
  match slotOfId k thread with
  | none => [none]
  | some p => if (k.proc p).state = .zombie then [some p, (k.proc p).master] else [some p]

/-- The id names a worker of the caller's group that was not joined. -/
def Joinable (k : Kernel) (curproc : Nat) (thread : Int) : Prop :=
  k.masterOf curproc < NPROC ∧ ∃ w ∈ slotOfId k thread,
    (k.proc w).master = some (k.masterOf curproc) ∧
    ∃ i < NTHRE, (k.proc (k.masterOf curproc)).workerthread i = some w

structure Safe (k : Kernel) (curproc : Nat) (thread : Int) : Prop where
  valid : ∀ entry ∈ inspected k thread, ∃ p < NPROC, entry = some p
  returns : ¬ Joinable k curproc thread → ∃ value,
    thread_join_int k curproc thread = .ok (k, .returned value)

/-- `deallocstack` frees at least the kernel stack. -/
theorem deallocstack_grows {worker : Nat} {done : Bool}
    (ran : deallocstack k worker = .ok (t, done)) :
    k.mem.freelist.length < t.mem.freelist.length := by
  obtain ⟨page, master, _, _, ⟨_, _, rfl⟩ |
      ⟨i, d, dir, mem, dir', sz, _, _, _, _, freed, _, rfl⟩⟩ :=
    deallocstack_eq ran
  · exact Nat.lt_succ_self _
  show _ < mem.freelist.length
  rw [deallocuvm_eq] at freed
  obtain ⟨_, unmapped, freed⟩ := bind_eq_ok.mp freed
  cases freed
  rw [(unmapPages_spec unmapped).2.1, length_append]
  exact Nat.lt_of_lt_of_le (Nat.lt_succ_self _) (Nat.le_add_left _ _)

/-- A slot in use is not left alone. -/
theorem joinLoop_changes {join : Nat} {value : Option Nat} :
    joinLoop k p join ≠ .ok (k, .returned value) := by
  intro ran
  rcases joinLoop_eq ran with ⟨_, sleeps, _⟩ | ⟨_, _, freed⟩ | ⟨zombie, u, master, _, _, _, result⟩
  · cases sleeps
  · exact Nat.lt_irrefl _ (deallocstack_grows freed)
  · have gone : (k.proc join).state = .unused := by
      rw [result, setProc_self]
    rw [zombie] at gone
    cases gone

theorem not_safe_of_missing (missed : slotOfId k thread = none) : ¬ Safe k p thread := by
  intro safe
  obtain ⟨_, _, missing⟩ := safe.valid none (by rw [inspected, missed]; exact mem_singleton_self _)
  cases missing

theorem not_safe_of_foreign {w : Nat} (found : slotOfId k thread = some w)
    (used : (k.proc w).state ≠ .unused) (foreign : ¬ Joinable k p thread) : ¬ Safe k p thread := by
  intro safe
  obtain ⟨value, ran⟩ := safe.returns foreign
  unfold thread_join_int at ran
  rw [found] at ran
  dsimp only at ran
  rw [if_neg used] at ran
  exact joinLoop_changes ran

/-- `thread_join` is safe exactly for the ids in the table whose slot is unused or a worker of the
caller's group. -/
theorem thread_join_safe_iff (k : Kernel) (curproc : Nat) (thread : Int) : Safe k curproc thread ↔
    ∃ w, slotOfId k thread = some w ∧ ((k.proc w).state = .unused ∨ Joinable k curproc thread) := by
  constructor
  · intro safe
    cases found : slotOfId k thread with
    | none => exact absurd safe (not_safe_of_missing found)
    | some w =>
      refine ⟨w, rfl, or_iff_not_imp_left.mpr fun used => ?_⟩
      by_contra foreign
      exact not_safe_of_foreign found used foreign safe
  · rintro ⟨w, found, rest⟩
    obtain ⟨_, inside, _⟩ := Scan.first_eq_some found
    constructor
    · intro entry member
      unfold inspected at member
      rw [found] at member
      dsimp only at member
      split at member
      · rename_i zombie
        rcases rest with unused | ⟨below, w', named, link, _⟩
        · rw [zombie] at unused
          cases unused
        · rw [found] at named
          cases named
          rcases mem_cons.mp member with rfl | member
          · exact ⟨w, by omega, rfl⟩
          · exact ⟨_, below, (mem_singleton.mp member).trans link⟩
      · exact ⟨w, by omega, mem_singleton.mp member⟩
    · intro foreign
      refine ⟨some 0, ?_⟩
      unfold thread_join_int
      rw [found]
      exact if_pos (rest.resolve_right foreign)

/-- The first process asks for an id that was never given, and for its own. -/
theorem thread_join_unsafe : ∃ k, userinit (Kernel.boot smallMem) (fun _ => 0) = .ok k ∧
    ¬ Safe k 0 999 ∧ ¬ Safe k 0 1 := by
  have facts : bootSmall.map (fun k => decide (slotOfId k 999 = none ∧ slotOfId k 1 = some 0 ∧
      (k.proc 0).state ≠ .unused ∧ (k.proc 0).master = none)) = some true := by decide +kernel
  obtain ⟨k, booted, facts⟩ := map_eq_some_iff.mp facts
  obtain ⟨missed, own, used, single⟩ := of_decide_eq_true facts
  refine ⟨k, toOption_eq_some.mp booted, not_safe_of_missing missed,
      not_safe_of_foreign own used ?_⟩
  rintro ⟨_, w, named, link, _⟩
  rw [own] at named
  cases named
  rw [single] at link
  cases link

/-- There is one more worker. -/
structure Added (k t : Kernel) (master w : Nat) : Prop where
  unused : (k.proc w).state = .unused
  runnable : (t.proc w).state = .runnable ∧ (t.proc w).master = some master
  listed : ∃ i < NTHRE, (k.proc master).workerthread i = none ∧
    (t.proc master).workerthread = update (k.proc master).workerthread i (some w)
  others : ∀ q, q ≠ w → (t.proc q).state = (k.proc q).state ∧ (q ≠ master → t.proc q = k.proc q)

/-- Entries in use are as before and the others are still unused. -/
structure Undone (k t : Kernel) : Prop where
  table : ∀ q, t.proc q = k.proc q ∨ (k.proc q).state = .unused ∧ (t.proc q).state = .unused
  space : t.pgdirs = k.pgdirs
  free : t.mem.freelist.length = k.mem.freelist.length

/-- References to open files and to the current directory are taken where there is a thread with a
stack. -/
def AllOrNothing (k : Kernel) (p arg : Nat) : Prop :=
  ∃ t made, thread_create k p arg = .ok (t, made) ∧
    (∀ w, made = some w → Added k t (k.masterOf p) w) ∧
    (made = none → Undone k t ∧ stackedThread k p = none)

/-- The group has a free index, and there is memory for two pages where the stack goes and for a
kernel stack. -/
def Room (k : Kernel) (master start : Nat) : Prop :=
  (∃ i < NTHRE, (k.proc master).workerthread i = none) ∧ start + 2 * PGSIZE < KERNBASE ∧
  ∃ d dir, (k.proc master).pgdir = some d ∧ k.pgdirs d = some dir ∧
    (∀ v, pages start ≤ v → v < pages start + 2 → dir.entry v = none) ∧
    (start / PGSIZE / NPTENTRIES = pages start / NPTENTRIES ∨
      (dir.pgtab (start / PGSIZE / NPTENTRIES)).isSome) ∧
    stackSupply dir (pages start) < k.mem.freelist.length

theorem allocthreadRest_goes {i : Nat} (page : kalloc k.mem = (mem, some frame))
    (different : master ≠ p) (inside : i < NTHRE) (free : (k.proc master).workerthread i = none) :
    ∃ u, allocthreadRest k master p = .ok (u, true) := by
  unfold allocthreadRest Kernel.allocStack
  rw [page]
  dsimp only
  split
  · rename_i missed
    have taken := Scan.first_eq_none missed i (Nat.zero_le i) (by omega)
    rw [setProc_self] at taken
    dsimp only at taken
    rw [setProc_of_ne different, setProc_of_ne different,
      setMem_proc, free] at taken
    cases taken
  · exact ⟨_, rfl⟩

theorem allocusrstack_goes {dir₁ dir₂ : Pgdir} (pgdir : (k.proc master).pgdir = some d)
    (present : k.pgdirs d = some dir) (start : stackStart (k.proc master) = s)
    (grown : allocuvm k.mem dir s (s + 2 * PGSIZE) = .ok (mem, dir₁, sz)) (positive : sz ≠ 0)
    (guarded : clearpteu dir₁ ((sz - 2 * PGSIZE) / PGSIZE) = .ok dir₂) :
    ∃ u, allocusrstack k master p = .ok (u, true) := by
  have first : k.dir (k.proc master).pgdir = .ok (d, dir) := dir_eq_ok.mpr ⟨pgdir, present⟩
  rw [← start] at grown
  unfold stackStart freeStack at grown
  unfold allocusrstack
  cases found : Scan.first (fun i => (k.proc master).freeusrspace i != 0) NTHRE 0 with
  | some i =>
    rw [found] at grown
    simp only [first, found, grown, guarded, if_neg positive, bind, Except.bind]
    exact ⟨_, rfl⟩
  | none =>
    rw [found] at grown
    simp only [first, found, grown, guarded, if_neg positive, bind, Except.bind]
    exact ⟨_, rfl⟩

/-- The top of a new stack can be written. -/
theorem stack_copyout (mem'' : Mem) {bytes : List UInt8}
    (grown : allocuvm mem dir s (s + 2 * PGSIZE) = .ok (mem', dir', s + 2 * PGSIZE))
    (guarded : clearpteu dir' ((s + 2 * PGSIZE - 2 * PGSIZE) / PGSIZE) = .ok dir'')
    (length : bytes.length = 12) :
    ∃ m, copyout mem'' dir'' (s + 2 * PGSIZE - 12) bytes = .ok (m, true) := by
  rcases (allocuvm_spec grown).2 with ⟨_, _, below, new, _⟩ | ⟨_, less, _⟩ | ⟨zero, _⟩
  · refine copyout_returns (by unfold KERNBASE at below; omega) fun j inside => ?_
    rw [length] at inside
    have address : (s + 2 * PGSIZE - 12 + j) % 2 ^ 32 = s + 2 * PGSIZE - 12 + j :=
      Nat.mod_eq_of_lt (by unfold KERNBASE at below; omega)
    obtain ⟨_, frame, found⟩ :=
      new ((s + 2 * PGSIZE - 12 + j) / PGSIZE) (by unfold pages PGSIZE at *; omega)
      (by unfold pages PGSIZE at *; omega)
    unfold Pgdir.user Pgdir.userPage
    rw [address, (clearpteu_spec (m := mem) guarded).2 _, if_neg (by unfold PGSIZE at *; omega),
      found]
    exact some_ne_none _
  · omega
  · unfold PGSIZE at zero
    omega

/-- With room for the thread the call returns its slot. -/
theorem thread_create_goes (arg : Nat) (used : (k.proc (k.masterOf p)).state ≠ .unused)
    (found : k.unusedSlot = some np)
    (room : Room k (k.masterOf p) (stackStart (k.proc (k.masterOf p)))) :
    ∃ t, thread_create k p arg = .ok (t, some np) := by
  generalize isMaster : k.masterOf p = master at *
  obtain ⟨⟨i, inside, free⟩, bound, d, dir, pgdir, present, absent, guard, enough⟩ := room
  have different : np ≠ master := by
    intro equal
    exact used (equal ▸ (unusedSlot_spec found).2)
  obtain ⟨frame, rest, list⟩ := exists_cons_of_length_pos (Nat.zero_lt_of_lt enough)
  have page : kalloc (k.claim np).mem = ({ k.mem with freelist := rest }, some frame) := by
    show kalloc k.mem = _
    unfold kalloc
    rw [list]
  have claimed : (k.claim np).proc master = k.proc master := by
    rw [claim_proc, update_of_ne different.symm]
  obtain ⟨u, allocated⟩ := allocthreadRest_goes page different.symm inside (claimed ▸ free)
  obtain ⟨m, frame', j, page', _, _, result⟩ := allocthreadRest_eq_true allocated different
  cases page.symm.trans page'
  rw [claimed] at result
  have top : u.proc master = enlist (k.proc master) j np := by
    rw [result, setProc_of_ne different.symm, setProc_self]
  have dirs : u.pgdirs = k.pgdirs := result ▸ rfl
  have isMem : u.mem = { k.mem with freelist := rest } := result ▸ rfl
  have supply : stackSupply dir (pages (stackStart (k.proc master))) ≤ rest.length := by
    rw [list, length_cons] at enough
    omega
  have start : stackStart (u.proc master) = stackStart (k.proc master) := by
    rw [top]
    rfl
  rw [← start] at bound absent guard supply
  generalize isStart : stackStart (u.proc master) = s at *
  rcases allocuvm_stack (m := u.mem) bound absent with ⟨_, mem', dir', grown, tables⟩ | ⟨short, _⟩
  · have table : (dir'.pgtab (s / PGSIZE / NPTENTRIES)).isSome := by
      refine (tables _ (Nat.div_le_div_right ?_)).mpr guard
      unfold pages PGSIZE
      omega
    obtain ⟨dir'', guarded⟩ : ∃ dir'', clearpteu dir' ((s + 2 * PGSIZE - 2 * PGSIZE) / PGSIZE) =
        .ok dir'' := by
      rw [Nat.add_sub_cancel]
      unfold clearpteu
      split
      · rename_i missing
        rw [missing] at table
        cases table
      · exact ⟨_, rfl⟩
    have positive : s + 2 * PGSIZE ≠ 0 := by
      unfold PGSIZE
      omega
    obtain ⟨v, stacked⟩ := allocusrstack_goes (p := np) (by rw [top]; exact pgdir)
      ((congrFun dirs d).trans present) isStart grown positive guarded
    obtain ⟨d', dir₀, mem₁, dir₁, sz, pgdir', present', grown', ends⟩ :=
      allocusrstack_eq stacked different
    rw [top] at pgdir'
    cases pgdir.symm.trans pgdir'
    cases present.symm.trans ((congrFun dirs d).symm.trans present')
    rw [isStart] at grown'
    cases grown.symm.trans grown'
    rcases ends with ⟨impossible, _⟩ | ⟨_, _, dir₂, guarded', isStacked⟩
    · cases impossible
    cases guarded.symm.trans guarded'
    have head : (v.proc master).pgdir = some d := by
      rw [isStacked, setProc_of_ne different.symm, setProc_self, top]
      obtain ⟨_, _, same⟩ := lend_resized (enlist (k.proc master) j np) (s + 2 * PGSIZE)
      rw [same]
      exact pgdir
    have dir : v.dir (v.proc master).pgdir = .ok (d, dir'') :=
      dir_eq_ok.mpr ⟨head, by rw [isStacked]; exact update_self _ _ _⟩
    have size : (v.proc np).sz = s + 2 * PGSIZE := by
      rw [isStacked, setProc_self]
    obtain ⟨mem, written⟩ := stack_copyout v.mem grown guarded
      (show (wordBytes 0xffffffff ++ wordBytes arg ++ wordBytes 0).length = 12 from rfl)
    unfold thread_create allocthread threadRest
    simp only [isMaster, found, allocated, stacked, dir, size, written, bind, Except.bind]
    exact ⟨_, rfl⟩
  · rw [isMem] at short
    exact absurd supply (Nat.not_le_of_lt short)

theorem not_undone (found : k.unusedSlot = some np) (used : (t.proc np).state ≠ .unused) :
    ¬ Undone k t := by
  intro undone
  rcases undone.table np with same | ⟨_, unused⟩
  · exact used (same ▸ (unusedSlot_spec found).2)
  · exact used unused

theorem room_of_grown {start : Nat} (index : ∃ i < NTHRE, (k.proc master).workerthread i = none)
    (pgdir : (k.proc master).pgdir = some d) (present : k.pgdirs d = some dir)
    (page : kalloc k.mem = (mem, some frame))
    (grown : allocuvm mem dir start (start + 2 * PGSIZE) = .ok (mem', dir', sz)) (positive : sz ≠ 0)
    (guarded : clearpteu dir' ((sz - 2 * PGSIZE) / PGSIZE) = .ok dir'') : Room k master start := by
  rcases (allocuvm_spec grown).2 with ⟨rfl, _, bound, new, _⟩ | ⟨_, less, _⟩ | ⟨zero, _⟩
  · have last : pages (start + 2 * PGSIZE) = pages start + 2 := by
      unfold pages PGSIZE
      omega
    have absent : ∀ v, pages start ≤ v → v < pages start + 2 → dir.entry v = none :=
      fun v lower upper => (new v lower (last ▸ upper)).1
    rcases allocuvm_stack (m := mem) bound absent with ⟨enough, m, dir₁, same, tables⟩ | ⟨_, fails⟩
    · cases same.symm.trans grown
      refine ⟨index, bound, d, dir, pgdir, present, absent, ?_, ?_⟩
      · refine (tables _ (Nat.div_le_div_right ?_)).mp ?_
        · unfold pages PGSIZE
          omega
        unfold clearpteu at guarded
        rw [Nat.add_sub_cancel] at guarded
        split at guarded
        · cases guarded
        · rename_i table there
          rw [there]
          rfl
      · rw [(kalloc_some page).1, length_cons]
        omega
    · exact absurd (fails _ _ _ grown) positive
  · omega
  · exact absurd zero positive

theorem nothing_of_allocthread {arg : Nat} (failed : allocthread k (k.masterOf p) = .ok (t, none))
    (undone : Undone k t) : AllOrNothing k p arg := by
  refine ⟨t, none, ?_, fun _ made => (nomatch made), fun _ => ⟨undone, ?_⟩⟩
  · unfold thread_create
    dsimp only
    rw [failed]
    rfl
  · unfold stackedThread
    rw [failed]

theorem undone_of_empty (found : k.unusedSlot = some np) (empty : k.mem.freelist = []) :
    ∃ t, allocthread k master = .ok (t, none) ∧ Undone k t := by
  have page : kalloc (k.claim np).mem = (k.mem, none) := by
    show kalloc k.mem = _
    unfold kalloc
    rw [empty]
  unfold allocthread allocthreadRest Kernel.allocStack
  rw [found]
  dsimp only
  rw [page]
  refine ⟨_, rfl, fun q => ?_, rfl, rfl⟩
  rw [setProc_proc, update_apply, setMem_proc, claim_proc]
  split
  · rename_i here
    exact .inr ⟨here ▸ (unusedSlot_spec found).2, rfl⟩
  · rename_i other
    exact .inl (update_of_ne other _ _)

/-- `thread_create` is all or nothing exactly when the table or the memory is full at its start, or
there is room for all that it takes. -/
theorem thread_create_all_or_nothing_iff (k : Kernel) (p arg : Nat)
    (used : (k.proc (k.masterOf p)).state ≠ .unused) : AllOrNothing k p arg ↔
      k.unusedSlot = none ∨ k.mem.freelist = [] ∨
        Room k (k.masterOf p) (stackStart (k.proc (k.masterOf p))) := by
  constructor
  · rintro ⟨t, made, returned, worked, failed⟩
    cases created_of_thread_create used returned with
    | noSlot full _ _ => exact .inl full
    | noPage np found empty _ _ => exact .inr (.inl empty)
    |
        listed np i d frame sz mem mem' dir dir' dir'' top state found page inside free
        pgdir present grown
        stack _ _ _ proc =>
        rcases stack with ⟨_, _, _, rfl, isNone⟩ | ⟨positive, guarded, _, _⟩
        · refine absurd (failed isNone).1 (not_undone found ?_)
          rw [proc, update_self]
          exact ProcState.noConfusion
        · exact .inr
            (.inr (room_of_grown ⟨i, inside, free⟩ pgdir present page grown positive guarded))
  · intro condition
    cases found : k.unusedSlot with
    | none =>
      refine nothing_of_allocthread (t := k) ?_ ⟨fun _ => .inl rfl, rfl, rfl⟩
      unfold allocthread
      rw [found]
    | some np =>
      rcases condition with impossible | empty | room
      · rw [found] at impossible
        cases impossible
      · obtain ⟨t, failed, undone⟩ := undone_of_empty found empty
        exact nothing_of_allocthread failed undone
      obtain ⟨t, returned⟩ := thread_create_goes arg used found room
      refine ⟨t, some np, returned, fun w made => ?_, fun impossible => nomatch impossible⟩
      cases made
      have different : k.masterOf p ≠ np := fun equal => used (equal ▸ (unusedSlot_spec found).2)
      cases created_of_thread_create used returned with
      | noSlot _ failed _ => cases failed
      | noPage np' _ _ failed _ => cases failed
      |
          listed np' i d frame sz mem mem' dir dir' dir'' top state found' _ inside free _
          _ _ stack _ _ _
          proc =>
          cases found.symm.trans found'
          rcases stack with ⟨_, _, _, _, failed⟩ | ⟨_, _, rfl, ⟨_, failed⟩ | ⟨rfl, _⟩⟩
          · cases failed
          · cases failed
          obtain ⟨_, _, lent⟩ := lend_resized (enlist (k.proc (k.masterOf p)) i np) sz
          have top : t.proc (k.masterOf p) = lend (enlist (k.proc (k.masterOf p)) i np) sz := by
            rw [proc, update_of_ne different, update_self]
          have own : t.proc np = hired k (k.masterOf p) np frame i sz .runnable := by
            rw [proc, update_self]
          refine ⟨(unusedSlot_spec found).2, by rw [own]; exact ⟨rfl, rfl⟩, ⟨i, inside, free, ?_⟩,
            fun q other => ?_⟩
          · rw [top, lent]
            rfl
          by_cases here : q = k.masterOf p
          · refine ⟨?_, fun away => absurd here away⟩
            rw [here, top, lent]
            rfl
          · have same : t.proc q = k.proc q := by
              rw [proc, update_of_ne other, update_of_ne here]
            exact ⟨by rw [same], fun _ => same⟩

/-- The first process creates a thread. -/
theorem thread_create_first : ∃ k, userinit (Kernel.boot smallMem) (fun _ => 0) = .ok k ∧
    AllOrNothing k 0 0 := by
  have facts : (bootSmall.bind fun k => (k.proc 0).pgdir.bind fun d => (k.pgdirs d).map fun dir =>
      decide ((k.proc (k.masterOf 0)).state ≠ .unused ∧ k.masterOf 0 = 0 ∧
        stackStart (k.proc 0) = 4096 ∧
        (k.proc 0).workerthread 0 = none ∧ dir.entry 1 = none ∧ dir.entry 2 = none ∧
        stackSupply dir 1 < k.mem.freelist.length)) = some true := by decide +kernel
  obtain ⟨k, booted, facts⟩ := bind_eq_some_iff.mp facts
  obtain ⟨d, pgdir, facts⟩ := bind_eq_some_iff.mp facts
  obtain ⟨dir, present, facts⟩ := map_eq_some_iff.mp facts
  obtain ⟨used, isMaster, start, index, first, second, enough⟩ := of_decide_eq_true facts
  refine ⟨k, toOption_eq_some.mp booted,
      (thread_create_all_or_nothing_iff k 0 0 used).mpr (.inr (.inr ?_))⟩
  rw [isMaster, start]
  refine ⟨⟨0, by decide, index⟩, by decide, d, dir, pgdir, present, fun v lower upper => ?_,
      .inl rfl, enough⟩
  rcases show v = 1 ∨ v = 2 by unfold pages PGSIZE at *; omega with rfl | rfl
  · exact first
  · exact second

/-- With two pages left the thread has a kernel stack and no other; when 32 threads were made there
is no index for one more. -/
theorem thread_create_leaves :
    (∃ k, userinit (Kernel.boot ⟨(List.range 70).map (· + 1), fun _ _ => 0⟩)
      (fun _ => 0) = .ok k ∧ ¬ AllOrNothing k 0 0) ∧
    ∃ k,
      (bootSmall.bind fun k =>
      ((List.range 32).foldlM (fun k _ => (thread_create k 0 0).map Prod.fst)
      k).toOption) = some k ∧ ¬ AllOrNothing k 0 0 := by
  constructor
  · have facts : ((userinit (Kernel.boot ⟨(List.range 70).map (· + 1), fun _ _ => 0⟩)
        (fun _ => 0)).toOption.bind fun k => (thread_create k 0 0).toOption.map fun r =>
          decide (r.2 = none ∧ k.unusedSlot = some 1 ∧ (r.1.proc 1).state ≠ .unused)) =
            some true := by
      decide +kernel
    obtain ⟨k, booted, facts⟩ := bind_eq_some_iff.mp facts
    obtain ⟨⟨t, made⟩, returned, facts⟩ := map_eq_some_iff.mp facts
    obtain ⟨isNone, found, used⟩ := of_decide_eq_true facts
    refine ⟨k, toOption_eq_some.mp booted, ?_⟩
    rintro ⟨t', made', returned', _, failed⟩
    cases returned'.symm.trans (toOption_eq_some.mp returned)
    exact not_undone found used (failed isNone).1
  · have facts :
      ((bootSmall.bind fun k => ((List.range 32).foldlM (fun k _ => (thread_create k 0 0).map
        Prod.fst) k).toOption).map fun k => (thread_create k 0 0).toOption.isNone) = some true := by
      decide +kernel
    obtain ⟨k, created, stops⟩ := map_eq_some_iff.mp facts
    refine ⟨k, created, ?_⟩
    rintro ⟨t, made, returned, _⟩
    rw [returned] at stops
    cases stops

end Xv6.Process.Failures
