import Xv6.Lib.Table
import Xv6.Process.Others
import Xv6.Process.Pages

/- What the functions of proc.c return, field by field. -/
namespace Xv6.Process

open Function Outcome Vm List

variable {k t u : Kernel} {p q master : Nat} {reserved : List Nat}
    {made : Option Nat} {arg worker join c : Nat} {done : Bool} {progress : Progress}
    {new old : Proc} {may : Nat → Proc → Proc → Prop}

theorem dir_eq_ok {pgdir : Option Nat} {d : Nat} {dir : Pgdir} :
    k.dir pgdir = .ok (d, dir) ↔ pgdir = some d ∧ k.pgdirs d = some dir := by
  constructor
  · intro ran
    unfold Kernel.dir at ran
    split at ran
    · cases ran
    · split at ran
      · rename_i found
        cases ran
        exact ⟨rfl, found⟩
      · cases ran
  · rintro ⟨same, found⟩
    unfold Kernel.dir
    rw [same]
    dsimp only
    rw [found]

theorem free_eq {frame : Option Nat} (ran : k.free frame = .ok t) :
    ∃ page, frame = some page ∧ t = k.setMem (kfree k.mem page) := by
  unfold Kernel.free at ran
  split at ran
  · cases ran
  · rename_i page
    cases ran
    exact ⟨page, rfl, rfl⟩

theorem allocthreadRest_eq_true (ran : allocthreadRest k master p = .ok (t, true))
    (different : p ≠ master) : ∃ m frame i, kalloc k.mem = (m, some frame) ∧ i < NTHRE ∧
      (k.proc master).workerthread i = none ∧
      t = ((k.setMem m).setProc master (enlist (k.proc master) i p)).setProc p
        (recruit (k.proc p) (k.proc master) frame master i) := by
  unfold allocthreadRest at ran
  split at ran
  · cases ran
  rename_i u allocated
  obtain ⟨m, frame, taken, same⟩ := allocStack_eq_true allocated
  subst same
  dsimp only at ran
  split at ran
  · cases ran
  rename_i i found
  obtain ⟨_, inside, free, _⟩ := Scan.first_eq_some found
  simp only [setProc_proc, setMem_proc, update_self, update_of_ne different,
    update_of_ne different.symm] at free ran
  refine ⟨m, frame, i, taken, by omega, Option.isNone_iff_eq_none.mp free, ?_⟩
  cases ran
  unfold Kernel.setProc Kernel.setMem enlist recruit
  dsimp only
  congr 1
  funext q
  by_cases isNew : q = p
  · rw [isNew, update_self, update_self]
  · rw [update_of_ne isNew, update_of_ne isNew]
    by_cases isMaster : q = master
    · rw [isMaster, update_self, update_self]
    · simp only [update_of_ne isMaster, update_of_ne isNew]

theorem forkRest_eq (ran : forkRest k p q = .ok (t, made)) :
    ∃ e dir m, (k.proc p).pgdir = some e ∧ k.pgdirs e = some dir ∧
      (copyuvm k.mem dir (k.proc p).sz = .ok (m, none) ∧ made = none ∧
        (∃ page, (k.proc q).kstack = some page ∧
          t = (k.setMem (kfree m page)).setProc q { k.proc q with
            pgdir := none, kstack := none, state := .unused }) ∨
      ∃ d new, copyuvm k.mem dir (k.proc p).sz = .ok (m, some (d, new)) ∧ made = some q ∧
        t = ((k.setMem m).setDir d (some new)).setProc q { k.proc q with
          pgdir := some d, sz := (k.proc p).sz, parent := some p, state := .runnable }) := by
  unfold forkRest at ran
  obtain ⟨⟨e, dir⟩, directory, ran⟩ := bind_eq_ok.mp ran
  obtain ⟨pgdir, present⟩ := dir_eq_ok.mp directory
  obtain ⟨⟨m, copy⟩, copied, ran⟩ := bind_eq_ok.mp ran
  refine ⟨e, dir, m, pgdir, present, ?_⟩
  cases copy with
  | none =>
    dsimp only at ran
    obtain ⟨u, freed, ran⟩ := bind_eq_ok.mp ran
    obtain ⟨page, stack, same⟩ := free_eq freed
    subst same
    cases ran
    exact .inl ⟨copied, rfl, page, stack, rfl⟩
  | some pair =>
    obtain ⟨d, new⟩ := pair
    cases ran
    exact .inr ⟨d, new, copied, rfl, rfl⟩

/-- The entry of `freeusrspace` that `allocusrstack` uses. -/
def freeStack (m : Proc) : Option Nat := Scan.first (fun i => m.freeusrspace i != 0) NTHRE 0

/-- Where `allocusrstack` puts a stack. -/
def stackStart (m : Proc) : Nat :=
  match freeStack m with
  | some i => m.freeusrspace i
  | none => m.sz

/-- The master after it has given a stack that ends at `sz`. -/
def lend (m : Proc) (sz : Nat) : Proc :=
  match freeStack m with
  | some i => { m with freeusrspace := update m.freeusrspace i 0 }
  | none => { m with sz := sz }

theorem allocusrstack_eq (ran : allocusrstack k master p = .ok (t, done)) (different : p ≠ master) :
    ∃ d dir mem dir₁ sz, (k.proc master).pgdir = some d ∧ k.pgdirs d = some dir ∧
      allocuvm k.mem dir (stackStart (k.proc master))
        (stackStart (k.proc master) + 2 * PGSIZE) = .ok (mem, dir₁, sz) ∧
      (done = false ∧ sz = 0 ∧
        t = ((k.setMem mem).setDir d (some dir₁)).setProc p { k.proc p with sz := 0 } ∨
      done = true ∧ sz ≠ 0 ∧ ∃ dir₂, clearpteu dir₁ ((sz - 2 * PGSIZE) / PGSIZE) = .ok dir₂ ∧
        t = (((k.setMem mem).setDir d (some dir₂)).setProc master (lend (k.proc master) sz)).setProc
          p
          { k.proc p with sz := sz }) := by
  unfold allocusrstack at ran
  obtain ⟨⟨d, dir⟩, found, ran⟩ := bind_eq_ok.mp ran
  obtain ⟨pgdir, present⟩ := dir_eq_ok.mp found
  have commute : ∀ {mem dir'} (new : Proc) (lent : Proc),
      (((k.setMem mem).setProc p new).setProc master lent).setDir d (some dir') =
      (((k.setMem mem).setDir d (some dir')).setProc master lent).setProc p new := by
    intro mem dir' new lent
    unfold Kernel.setProc Kernel.setMem Kernel.setDir
    dsimp only
    rw [update_comm different]
  unfold stackStart lend freeStack
  cases region : Scan.first (fun i => (k.proc master).freeusrspace i != 0) NTHRE 0
  all_goals
    dsimp only at ran
    rw [region] at ran
    obtain ⟨⟨mem, dir₁, sz⟩, allocated, ran⟩ := bind_eq_ok.mp ran
    refine ⟨d, dir, mem, dir₁, sz, pgdir, present, allocated, ?_⟩
    dsimp only at ran
    split at ran
    · rename_i none
      cases ran
      exact .inl ⟨rfl, none, by rw [none]; rfl⟩
    rename_i some
    obtain ⟨dir₂, cleared, ran⟩ := bind_eq_ok.mp ran
    cases ran
    refine .inr ⟨rfl, some, dir₂, cleared, ?_⟩
    rw [commute, setProc_of_ne different.symm]
    rfl

theorem copyoutLoop_freelist {dir : Pgdir} {fuel va : Nat} {bytes : List UInt8} {m m' : Mem}
    (ran : copyoutLoop dir fuel m va bytes = .ok (m', done)) : m'.freelist = m.freelist := by
  induction fuel generalizing m va bytes with
  | zero =>
    cases ran
    rfl
  | succ fuel ih =>
    unfold copyoutLoop at ran
    split at ran
    · obtain ⟨frame, _, ran⟩ := bind_eq_ok.mp ran
      cases frame with
      | none =>
        cases ran
        rfl
      | some frame =>
        have kept := ih ran
        exact kept
    · cases ran
      rfl

/-- The stack of the new thread, and what is written to it. -/
theorem threadRest_eq (ran : threadRest k master p arg = .ok (t, made)) :
    ∃ u done mem, allocusrstack k master p = .ok (u, done) ∧ mem.freelist = u.mem.freelist ∧
      (made = none ∧ t = u.setMem mem ∨
      done = true ∧ made = some p ∧
        t = (u.setMem mem).setProc p { u.proc p with state := .runnable }) := by
  unfold threadRest at ran
  obtain ⟨⟨u, done⟩, allocated, ran⟩ := bind_eq_ok.mp ran
  cases done with
  | false =>
    cases ran
    exact ⟨t, false, t.mem, allocated, rfl, .inl ⟨rfl, rfl⟩⟩
  | true =>
    dsimp only at ran
    obtain ⟨⟨d, dir⟩, _, ran⟩ := bind_eq_ok.mp ran
    obtain ⟨⟨mem, copied⟩, copying, ran⟩ := bind_eq_ok.mp ran
    refine ⟨u, true, mem, allocated, copyoutLoop_freelist copying, ?_⟩
    cases copied with
    | false =>
      cases ran
      exact .inl ⟨rfl, rfl⟩
    | true =>
      cases ran
      exact .inr ⟨rfl, rfl, rfl⟩

/-- Where the stack of a thread of size `sz` begins. -/
def stackBase (sz : Nat) : Nat := (sz + 2 ^ 32 - 2 * PGSIZE) % 2 ^ 32

/-- The kernel stack and the user stack of `worker` are freed; without a place in `freeusrspace`
only the first. -/
theorem deallocstack_eq (ran : deallocstack k worker = .ok (t, done)) :
    ∃ page master, (k.proc worker).kstack = some page ∧ (k.proc worker).master = some master ∧
      (done = false ∧ (∀ i, i < NTHRE → (k.proc master).freeusrspace i ≠ 0) ∧
        t = k.setMem (kfree k.mem page) ∨
      ∃ i d dir mem dir' sz, i < NTHRE ∧ (k.proc master).freeusrspace i = 0 ∧
        (k.proc worker).pgdir = some d ∧ k.pgdirs d = some dir ∧
        deallocuvm (kfree k.mem page) dir (k.proc worker).sz (stackBase (k.proc worker).sz) =
          .ok (mem, dir', sz) ∧ done = (sz != 0) ∧
        t = ((k.setMem mem).setDir d (some dir')).setProc master { k.proc master with
          freeusrspace := update (k.proc master).freeusrspace i sz }) := by
  unfold deallocstack at ran
  obtain ⟨u, freed, ran⟩ := bind_eq_ok.mp ran
  obtain ⟨page, stack, same⟩ := free_eq freed
  subst same
  split at ran
  · cases ran
  rename_i master link
  refine ⟨page, master, stack, link, ?_⟩
  split at ran
  · rename_i full
    cases ran
    refine .inl ⟨rfl, ?_, rfl⟩
    intro i inside
    have used := Scan.first_eq_none full i (Nat.zero_le i) (by omega)
    rw [beq_eq_false_iff_ne] at used
    exact used
  · rename_i i found
    obtain ⟨_, inside, free, _⟩ := Scan.first_eq_some found
    rw [beq_iff_eq] at free
    obtain ⟨⟨d, dir⟩, directory, ran⟩ := bind_eq_ok.mp ran
    obtain ⟨pgdir, present⟩ := dir_eq_ok.mp directory
    obtain ⟨⟨mem, dir', sz⟩, unmapped, ran⟩ := bind_eq_ok.mp ran
    cases ran
    exact .inr ⟨i, d, dir, mem, dir', sz, by omega, free, pgdir, present, unmapped, rfl, rfl⟩

theorem joinLoop_eq (ran : joinLoop k p join = .ok (t, progress)) :
    (k.proc join).state ≠ .zombie ∧ progress = .sleeps ∧ t = k.setProc p { k.proc p with
        chan := (k.proc join).master.map Chan.proc, state := .sleeping } ∨
    (k.proc join).state = .zombie ∧ progress = .returned none ∧
      deallocstack k join = .ok (t, false) ∨
    (k.proc join).state = .zombie ∧ ∃ u master, deallocstack k join = .ok (u, true) ∧
      (k.proc join).master = some master ∧
      progress = .returned (some ((u.proc master).retvals (u.proc join).tindex)) ∧
      t = (u.setProc master { u.proc master with
          workerthread := update (u.proc master).workerthread (u.proc join).tindex none }).setProc
        join { (u.setProc master { u.proc master with
          workerthread := update (u.proc master).workerthread (u.proc join).tindex none }).proc
            join with state := .unused, kstack := none, killed := false } := by
  unfold joinLoop at ran
  split at ran
  · rename_i waits
    cases ran
    exact .inl ⟨waits, rfl, rfl⟩
  rename_i zombie
  rw [not_not] at zombie
  right
  obtain ⟨⟨u, done⟩, freed, ran⟩ := bind_eq_ok.mp ran
  cases done with
  | false =>
    cases ran
    exact .inl ⟨zombie, rfl, freed⟩
  | true =>
    right
    dsimp only at ran
    split at ran
    · cases ran
    rename_i master link
    refine ⟨zombie, u, master, freed, ?_, ?_⟩
    · obtain ⟨page, other, _, same, cases⟩ := deallocstack_eq freed
      rcases cases with ⟨impossible, _⟩ | ⟨i, d, dir, mem, dir', sz, _, _, _, _, _, _, result⟩
      · cases impossible
      rw [result, setProc_proc, update_apply] at link
      split at link
      · rename_i equal
        rw [equal]
        exact link
      · exact link
    · cases ran
      exact ⟨rfl, rfl⟩

/-- A worker that `wait` has freed. -/
def reclaimed (w : Proc) : Proc :=
  { w with kstack := none, parent := none, pid := 0, state := .unused, killed := false }

/-- The loop of `wait` over the workers of `c` after the indices `before`. -/
structure Reclaiming (k : Kernel) (c : Nat) (before : List Nat) (v : Kernel) : Prop where
  sound : ∀ reserved, k.Sound reserved → v.Sound reserved
  pgdirs : v.pgdirs = k.pgdirs
  initproc : v.initproc = k.initproc
  child : v.proc c = { k.proc c with
    workerthread := fun i => if i ∈ before then none else (k.proc c).workerthread i }
  gone : ∀ q, (∃ i ∈ before, (k.proc c).workerthread i = some q) → v.proc q = reclaimed (k.proc q)
  others : ∀ q, q ≠ c → (∀ i ∈ before, (k.proc c).workerthread i ≠ some q) → v.proc q = k.proc q

/-- A freed kernel stack that its slot forgets. -/
theorem Kernel.Sound.giveStack {page : Nat} (sound : k.Sound reserved)
    (stack : (k.proc p).kstack = some page) (none : new.kstack = none) :
    ((k.setMem (kfree k.mem page)).setProc p new).Sound reserved := by
  have given := separate_giveStack sound stack
  apply separate_forget given
  intro q f used
  rw [setProc_proc, update_apply] at used
  rw [update_apply]
  split at used
  · rename_i here
    rw [none] at used
    cases used
  · rename_i other
    rw [if_neg other]
    exact used

theorem Kernel.Sound.set (sound : k.Sound reserved) (same : new.kstack = (k.proc p).kstack) :
    (k.setProc p new).Sound reserved := by
  apply separate_forget sound
  intro q f used
  rw [setProc_proc, update_apply] at used
  split at used
  · rename_i here
    rw [here, ← same]
    exact used
  · exact used

theorem Reclaiming.round {i : Nat} {before : List Nat} {v w : Kernel}
    (apart : ∀ i w, (k.proc c).workerthread i = some w → w ≠ c) (fresh : i ∉ before)
    (kept : Reclaiming k c before v) (round : (match (v.proc c).workerthread i with
      | none => .ok v
      | some w => do
        let u ← v.free (v.proc w).kstack
        let u := u.setProc w { u.proc w with
          kstack := none, parent := none, pid := 0, state := .unused, killed := false }
        .ok (u.setProc c { u.proc c with
          workerthread := update (u.proc c).workerthread i none }) : Except Stop Kernel) =
      .ok w) : Reclaiming k c (before ++ [i]) w := by
  have entry : (v.proc c).workerthread i = (k.proc c).workerthread i := by
    rw [kept.child]
    exact if_neg fresh
  rw [entry] at round
  cases held : (k.proc c).workerthread i with
  | none =>
    rw [held] at round
    cases round
    constructor
    · exact kept.sound
    · exact kept.pgdirs
    · exact kept.initproc
    · rw [kept.child]
      dsimp only
      congr 1
      funext j
      by_cases here : j = i
      · rw [here, held, ite_self, ite_self]
      · simp only [mem_append, mem_singleton, here, or_false]
    · intro q found
      obtain ⟨j, member, found⟩ := found
      rcases mem_append.mp member with earlier | now
      · exact kept.gone q ⟨j, earlier, found⟩
      · rw [mem_singleton.mp now, held] at found
        cases found
    · intro q other none
      exact kept.others q other fun j member => none j (mem_append_left _ member)
  | some worker =>
    rw [held] at round
    dsimp only at round
    obtain ⟨u, freed, round⟩ := bind_eq_ok.mp round
    obtain ⟨page, stack, same⟩ := free_eq freed
    subst same
    cases round
    have different : worker ≠ c := apart i worker held
    -- a worker that is listed twice has no kernel stack the second time
    have first : ∀ j ∈ before, (k.proc c).workerthread j ≠ some worker := by
      intro j member found
      rw [kept.gone worker ⟨j, member, found⟩] at stack
      cases stack
    have untouched := kept.others worker different first
    constructor
    · intro reserved sound
      apply Kernel.Sound.set
      · apply Kernel.Sound.giveStack (kept.sound reserved sound) stack
        rfl
      · rfl
    · exact kept.pgdirs
    · exact kept.initproc
    · rw [setProc_self, setProc_of_ne different.symm, setMem_proc, kept.child]
      dsimp only
      congr 1
      funext j
      rw [update_apply]
      by_cases here : j = i
      · rw [if_pos here, if_pos]
        rw [here]
        exact mem_append_right _ (mem_singleton_self i)
      · simp only [mem_append, mem_singleton, here, or_false, if_false]
    · intro q found
      obtain ⟨j, member, found⟩ := found
      have other : q ≠ c := apart j q found
      rw [setProc_of_ne other, setProc_proc]
      rcases mem_append.mp member with earlier | now
      · rw [update_of_ne, setMem_proc]
        · exact kept.gone q ⟨j, earlier, found⟩
        · intro equal
          rw [equal] at found
          exact first j earlier found
      · rw [mem_singleton.mp now, held] at found
        cases found
        rw [update_self, setMem_proc, untouched]
        rfl
    · intro q other none
      have notWorker : q ≠ worker := by
        intro equal
        rw [equal] at none
        exact none i (mem_append_right _ (mem_singleton_self i)) held
      rw [setProc_of_ne other, setProc_of_ne notWorker, setMem_proc]
      exact kept.others q other fun j member => none j (mem_append_left _ member)

theorem mem_workers {w : Nat} : w ∈ k.workers c ↔ ∃ i, i < NTHRE ∧
    (k.proc c).workerthread i = some w := by
  unfold Kernel.workers
  rw [mem_filterMap]
  simp only [mem_range]

/-- `wait` frees the workers of the child and clears their list. -/
theorem reclaimWorkers_eq (ran : reclaimWorkers k c = .ok t)
    (apart : ∀ i w, (k.proc c).workerthread i = some w → w ≠ c) :
    (∀ reserved, k.Sound reserved → t.Sound reserved) ∧ t.pgdirs = k.pgdirs ∧
      t.initproc = k.initproc ∧
    t.proc c = { k.proc c with
      workerthread := fun i => if i < NTHRE then none else (k.proc c).workerthread i } ∧
    (∀ q, q ∈ k.workers c → t.proc q = reclaimed (k.proc q)) ∧
    ∀ q, q ≠ c → q ∉ k.workers c → t.proc q = k.proc q := by
  have rounds : Reclaiming k c (List.range NTHRE) t := by
    apply foldlM_ok (Reclaiming k c) _ _ ran
    · intro before i rest v w whole kept round
      apply Reclaiming.round apart _ kept round
      intro earlier
      have nodup : (List.range NTHRE).Nodup := nodup_range
      rw [whole, nodup_append] at nodup
      exact nodup.2.2 i earlier i mem_cons_self rfl
    · constructor
      · exact fun _ => id
      · rfl
      · rfl
      · rfl
      · intro q found
        obtain ⟨i, member, _⟩ := found
        cases member
      · exact fun _ _ _ => rfl
  refine ⟨rounds.sound, rounds.pgdirs, rounds.initproc, ?_, ?_, ?_⟩
  · rw [rounds.child]
    simp only [mem_range]
  · intro q member
    apply rounds.gone
    obtain ⟨i, inside, found⟩ := mem_workers.mp member
    exact ⟨i, mem_range.mpr inside, found⟩
  · intro q other absent
    apply rounds.others q other
    intro i member found
    exact absent (mem_workers.mpr ⟨i, mem_range.mp member, found⟩)

theorem deadChild_spec (found : k.deadChild p = some c) : c < NPROC ∧
    (k.proc c).parent = some p ∧ (k.proc c).master = none ∧ (k.proc c).state = .zombie := by
  obtain ⟨_, inside, good, _⟩ := Scan.first_eq_some found
  unfold Kernel.isChild at good
  rw [Bool.and_eq_true, Bool.and_eq_true, beq_iff_eq, beq_iff_eq, beq_iff_eq] at good
  exact ⟨by omega, good.1.1, good.1.2, good.2⟩

theorem wait_eq (ran : wait k p = .ok (t, progress)) :
    progress = .returned none ∧ t = k ∨
    progress = .sleeps ∧ t = k.setProc p { k.proc p with
      chan := some (.proc p), state := .sleeping } ∨
    ∃ c u page d dir mem, k.deadChild p = some c ∧ reclaimWorkers k c = .ok u ∧
      (u.proc c).kstack = some page ∧ (u.proc c).pgdir = some d ∧ u.pgdirs d = some dir ∧
      freevm (kfree u.mem page) d dir = .ok mem ∧
      progress = .returned (some (u.proc c).pid) ∧
      t = ((u.setMem mem).setDir d none).setProc c { u.proc c with
        kstack := none, pid := 0, parent := none, killed := false, state := .unused } := by
  unfold wait at ran
  split at ran
  · rename_i c found
    right
    right
    obtain ⟨u, reclaim, ran⟩ := bind_eq_ok.mp ran
    obtain ⟨v, freed, ran⟩ := bind_eq_ok.mp ran
    obtain ⟨page, stack, same⟩ := free_eq freed
    subst same
    obtain ⟨w, freedvm, ran⟩ := bind_eq_ok.mp ran
    unfold Kernel.freevm at freedvm
    split at freedvm
    · cases freedvm
    rename_i d pgdir
    obtain ⟨⟨e, dir⟩, directory, freedvm⟩ := bind_eq_ok.mp freedvm
    obtain ⟨same, present⟩ := dir_eq_ok.mp directory
    cases same
    obtain ⟨mem, freeing, freedvm⟩ := bind_eq_ok.mp freedvm
    cases freedvm
    cases ran
    rw [setProc_self] at pgdir
    refine ⟨c, u, page, d, dir, mem, found, reclaim, stack, pgdir, present, freeing, rfl, ?_⟩
    simp only [Kernel.setProc, Kernel.setMem, Kernel.setDir, update_self, update_idem]
  · split at ran
    · cases ran
      exact .inl ⟨rfl, rfl⟩
    · cases ran
      exact .inr (.inl ⟨rfl, rfl⟩)

/-- Allowed stores into the process table; the data of the scheduler stays. -/
def Touched (may : Nat → Proc → Proc → Prop) (k t : Kernel) : Prop :=
  Table.Stores may k.proc t.proc ∧ t.queues = k.queues ∧ t.strides = k.strides

theorem Touched.refl (k : Kernel) : Touched may k k := ⟨.none, rfl, rfl⟩

theorem Touched.set (before : Touched may k u) (allowed : may q (u.proc q) new) :
    Touched may k (u.setProc q new) :=
  ⟨before.1.store allowed, before.2⟩

theorem Touched.same {A : Type} (field : Proc → A) (touched : Touched may k t)
    (each : ∀ q old new, may q old new → field new = field old) (q : Nat) :
    field (t.proc q) = field (k.proc q) :=
  touched.1.entry (R := fun _ old new => field new = field old) (fun _ _ => rfl)
    (fun _ _ _ _ first second => second.trans first) each q

/-- The stores of a round of `thread_join` by `p` for the slot `join`. -/
inductive JoinStore (k : Kernel) (p join : Nat) (progress : Progress) (q : Nat)
    (old : Proc) : Proc → Prop
  | sleeps (asleep : progress = .sleeps) (caller : q = p) (first : old = k.proc q)
      (chan : Option Chan) :
      JoinStore k p join progress q old { old with chan := chan, state := .sleeping }
  | gives (link : (k.proc join).master = some q) (free : Nat → Nat) :
      JoinStore k p join progress q old { old with freeusrspace := free }
  | strikes (link : (k.proc join).master = some q) (i : Nat) :
      JoinStore k p join progress q old { old with workerthread := update old.workerthread i none }
  | frees {master : Nat} (zombie : (k.proc join).state = .zombie)
      (link : (k.proc join).master = some master) (isJoin : q = join) :
      JoinStore k p join progress q old { old with
        state := .unused, kstack := none, killed := false }

theorem joinLoop_touched (ran : joinLoop k p join = .ok (t, progress)) :
    Touched (JoinStore k p join progress) k t := by
  have gives : ∀ {u done}, deallocstack k join = .ok (u, done) →
      Touched (JoinStore k p join progress) k u := by
    intro u done freed
    obtain ⟨page, master, _, link, ⟨_, _, same⟩ |
      ⟨i, d, dir, mem, dir', sz, _, _, _, _, _, _, same⟩⟩ :=
      deallocstack_eq freed
    · rw [same]
      exact Touched.refl k
    · rw [same]
      exact Touched.set (u := (k.setMem mem).setDir d (some dir')) (Touched.refl k) (.gives link _)
  rcases joinLoop_eq ran with ⟨_, asleep, same⟩ | ⟨_, _, failed⟩ |
    ⟨zombie, u, master, freed, link, _, same⟩
  · rw [same]
    exact (Touched.refl k).set (.sleeps asleep rfl rfl _)
  · exact gives failed
  · rw [same]
    exact ((gives freed).set (.strikes link _)).set (.frees zombie link rfl)

/-- The stores of a pass of `wait` by `p`. -/
inductive WaitStore (k : Kernel) (p : Nat) (progress : Progress) (q : Nat)
    (old : Proc) : Proc → Prop
  | sleeps (asleep : progress = .sleeps) (caller : q = p) (first : old = k.proc q) :
      WaitStore k p progress q old { old with chan := some (.proc p), state := .sleeping }
  | reclaims {c : Nat} (found : k.deadChild p = some c) (worker : q ∈ k.workers c) :
      WaitStore k p progress q old (reclaimed old)
  | strikes {i w : Nat} (found : k.deadChild p = some q)
      (listed : (k.proc q).workerthread i = some w) :
      WaitStore k p progress q old { old with workerthread := update old.workerthread i none }
  | frees (found : k.deadChild p = some q) (dead : old.state = .zombie ∨ old.state = .unused) :
      WaitStore k p progress q old { old with
        kstack := none, pid := 0, parent := none, killed := false, state := .unused }

theorem reclaimWorkers_touched (found : k.deadChild p = some c) (ran : reclaimWorkers k c = .ok t) :
    Touched (WaitStore k p progress) k t ∧
      ((t.proc c).state = .zombie ∨ (t.proc c).state = .unused) := by
  suffices rounds : Touched (WaitStore k p progress) k t ∧
      ((t.proc c).state = .zombie ∨ (t.proc c).state = .unused) ∧
      ∀ i w, (t.proc c).workerthread i = some w → (k.proc c).workerthread i = some w from
    ⟨rounds.1, rounds.2.1⟩
  refine foldlM_ok (fun _ v => Touched (WaitStore k p progress) k v ∧
      ((v.proc c).state = .zombie ∨ (v.proc c).state = .unused) ∧
      ∀ i w, (v.proc c).workerthread i = some w → (k.proc c).workerthread i = some w) ?_
    ⟨Touched.refl k, .inl (deadChild_spec found).2.2.2, fun _ _ held => held⟩ ran
  rintro before i rest v w whole ⟨touched, dead, lists⟩ round
  dsimp only at round
  split at round
  · cases round
    exact ⟨touched, dead, lists⟩
  rename_i worker held
  obtain ⟨x, freed, round⟩ := bind_eq_ok.mp round
  obtain ⟨page, _, same⟩ := free_eq freed
  subst same
  cases round
  have inside : i ∈ List.range NTHRE := whole ▸ mem_append_right _ mem_cons_self
  have member := mem_workers.mpr ⟨i, mem_range.mp inside, lists i worker held⟩
  refine ⟨(Touched.set (u := v.setMem (kfree v.mem page)) touched (.reclaims found member)).set
    (.strikes found (lists i worker held)), ?_, ?_⟩
  · rw [setProc_self, setProc_proc, update_apply]
    split
    · exact .inr rfl
    · exact dead
  intro j w still
  rw [setProc_self] at still
  have still := held_of_cleared still
  rw [setProc_proc, update_apply] at still
  split at still
  · rename_i here
    rw [← here] at still
    exact lists j w still
  · exact lists j w still

theorem wait_touched (ran : wait k p = .ok (t, progress)) :
    Touched (WaitStore k p progress) k t := by
  rcases wait_eq ran with ⟨_, same⟩ | ⟨asleep, same⟩ |
    ⟨c, u, page, d, dir, mem, found, reclaim, _, _, _, _, _, same⟩
  · rw [same]
    exact Touched.refl k
  · rw [same]
    exact (Touched.refl k).set (.sleeps asleep rfl rfl)
  · obtain ⟨touched, dead⟩ := reclaimWorkers_touched found reclaim
    rw [same]
    exact Touched.set (u := (u.setMem mem).setDir d none) touched (.frees found dead)

/-- The stores of `thread_create` after the thread is listed. -/
inductive StackStore (master np q : Nat) (old : Proc) : Proc → Prop
  | resizes (own : q = np ∨ q = master) (sz : Nat) (free : Nat → Nat) :
      StackStore master np q old { old with sz := sz, freeusrspace := free }
  | starts (isNew : q = np) : StackStore master np q old { old with state := .runnable }

theorem allocusrstack_touched (ran : allocusrstack k master p = .ok (t, done)) :
    Touched (StackStore master p) k t := by
  unfold allocusrstack at ran
  obtain ⟨⟨d, dir⟩, _, ran⟩ := bind_eq_ok.mp ran
  dsimp only at ran
  split at ran
  all_goals
    obtain ⟨⟨mem, dir₁, sz⟩, _, ran⟩ := bind_eq_ok.mp ran
    have sized : Touched (StackStore master p) k
        ((k.setMem mem).setProc p { k.proc p with sz := sz }) :=
      Touched.set (u := k.setMem mem) (Touched.refl k) (.resizes (.inl rfl) sz _)
    dsimp only at ran
    split at ran
    · cases ran
      exact sized
    · obtain ⟨dir₂, _, ran⟩ := bind_eq_ok.mp ran
      cases ran
      exact sized.set (.resizes (.inr rfl) _ _)

theorem threadRest_touched (ran : threadRest k master p arg = .ok (t, made)) :
    Touched (StackStore master p) k t := by
  obtain ⟨u, done, mem, allocated, _, ends⟩ := threadRest_eq ran
  have touched := allocusrstack_touched allocated
  rcases ends with ⟨_, same⟩ | ⟨_, _, same⟩
  · rw [same]
    exact touched
  · rw [same]
    exact Touched.set (u := u.setMem mem) touched (.starts rfl)

/-- A field that a store leaves is the same for all processes. -/
theorem setProc_same {A : Type} (field : Proc → A) (same : field new = field (k.proc p)) (q : Nat) :
    field ((k.setProc p new).proc q) = field (k.proc q) := Update.same field same q

/-- The fields that tie a process to its group and to its memory. -/
structure SameTies (old new : Proc) : Prop where
  master : new.master = old.master
  workerthread : new.workerthread = old.workerthread
  tindex : new.tindex = old.tindex
  pgdir : new.pgdir = old.pgdir
  kstack : new.kstack = old.kstack

theorem SameTies.refl (old : Proc) : SameTies old old := ⟨rfl, rfl, rfl, rfl, rfl⟩

theorem SameTies.trans {middle : Proc} (first : SameTies old middle)
    (second : SameTies middle new) :
    SameTies old new :=
  ⟨second.1.trans first.1, second.2.trans first.2, second.3.trans first.3, second.4.trans first.4,
    second.5.trans first.5⟩

theorem SameTies.set (before : SameTies old (k.proc q)) (same : SameTies (k.proc p) new) :
    SameTies old ((k.setProc p new).proc q) :=
  before.trans (Update.rel same SameTies.refl q)

theorem Bystander.ties (given : Bystander p old new) : SameTies old new := by
  obtain ⟨parent, state, same, _⟩ := given
  rw [same]
  exact ⟨rfl, rfl, rfl, rfl, rfl⟩

/-- Another size or other stacks to reuse, and nothing else. -/
def Resized (old new : Proc) : Prop := ∃ sz free, new = { old with sz := sz, freeusrspace := free }

theorem Resized.refl (old : Proc) : Resized old old := ⟨old.sz, old.freeusrspace, rfl⟩

theorem Resized.ties (resized : Resized old new) : SameTies old new ∧ new.state = old.state := by
  obtain ⟨sz, free, same⟩ := resized
  rw [same]
  exact ⟨⟨rfl, rfl, rfl, rfl, rfl⟩, rfl⟩

theorem Resized.set (before : Resized old (k.proc q)) (same : Resized (k.proc p) new) :
    Resized old ((k.setProc p new).proc q) := by
  rw [setProc_proc]
  by_cases equal : q = p
  · obtain ⟨sz, free, new⟩ := same
    obtain ⟨sz', free', before⟩ := before
    rw [equal, update_self, new, ← equal, before]
    exact ⟨sz, free, rfl⟩
  · rw [update_of_ne equal]
    exact before

theorem lend_resized (m : Proc) (sz : Nat) : Resized m (lend m sz) := by
  unfold lend
  split
  · exact ⟨m.sz, _, rfl⟩
  · exact ⟨sz, m.freeusrspace, rfl⟩

theorem allocusrstack_resized (ran : allocusrstack k master p = .ok (t, done))
    (different : p ≠ master) (q : Nat) : Resized (k.proc q) (t.proc q) := by
  obtain ⟨d, dir, mem, dir₁, sz, _, _, _, cases⟩ := allocusrstack_eq ran different
  rcases cases with ⟨_, _, same⟩ | ⟨_, _, dir₂, _, same⟩
  · rw [same]
    exact Resized.set (Resized.refl _) ⟨0, (k.proc p).freeusrspace, rfl⟩
  · rw [same]
    apply Resized.set
    · exact Resized.set (Resized.refl _) (lend_resized (k.proc master) sz)
    · rw [setProc_of_ne different]
      exact ⟨sz, (k.proc p).freeusrspace, rfl⟩

/-- `deallocstack` changes the stacks to reuse of the master. -/
theorem deallocstack_table (ran : deallocstack k worker = .ok (t, done)) :
    ∃ master, (k.proc worker).master = some master ∧ t.initproc = k.initproc ∧
      (∀ q, q ≠ master → t.proc q = k.proc q) ∧ ∀ q, Resized (k.proc q) (t.proc q) := by
  obtain ⟨page, master, _, link, cases⟩ := deallocstack_eq ran
  refine ⟨master, link, ?_⟩
  rcases cases with ⟨_, _, same⟩ | ⟨i, d, dir, mem, dir', sz, _, _, _, _, _, _, same⟩
  · rw [same]
    exact ⟨rfl, fun _ _ => rfl, fun _ => Resized.refl _⟩
  rw [same]
  refine ⟨rfl, ?_, ?_⟩
  · intro q other
    rw [setProc_of_ne other]
    rfl
  · intro q
    exact Resized.set (Resized.refl _) ⟨(k.proc master).sz, _, rfl⟩

/-- What is not in the process table stays as well. -/
structure SameMemory (k t : Kernel) : Prop where
  mem : t.mem = k.mem
  pgdirs : t.pgdirs = k.pgdirs
  initproc : t.initproc = k.initproc
  nextpid : t.nextpid = k.nextpid

theorem SameMemory.refl (k : Kernel) : SameMemory k k := ⟨rfl, rfl, rfl, rfl⟩

theorem SameMemory.trans (first : SameMemory k u) (second : SameMemory u t) : SameMemory k t :=
  ⟨second.1.trans first.1, second.2.trans first.2, second.3.trans first.3, second.4.trans first.4⟩

theorem Kernel.Sound.same (sound : k.Sound reserved) (mem : t.mem = k.mem)
    (pgdirs : t.pgdirs = k.pgdirs) (ties : ∀ q, SameTies (k.proc q) (t.proc q)) :
    t.Sound reserved := by
  unfold Kernel.Sound
  rw [mem, pgdirs]
  apply separate_forget sound
  intro q f used
  rw [(ties q).kstack] at used
  exact used

theorem OnlyTable.memory (only : OnlyTable k t) : SameMemory k t := by
  obtain ⟨_, rfl⟩ := only
  exact ⟨rfl, rfl, rfl, rfl⟩

theorem setProc_memory (k : Kernel) (p : Nat) (new : Proc) : SameMemory k (k.setProc p new) :=
  ⟨rfl, rfl, rfl, rfl⟩

theorem wakeup1_memory (k : Kernel) (chan : Option Chan) : SameMemory k (wakeup1 k chan) :=
  ⟨rfl, rfl, rfl, rfl⟩

theorem push_memory (k : Kernel) (p level : Nat) : SameMemory k (push_MLFQ k p level).1 := by
  unfold push_MLFQ
  split
  · exact SameMemory.refl k
  · exact ⟨rfl, rfl, rfl, rfl⟩

/-- `allocproc` takes a page for the kernel stack. -/
theorem allocprocRest_eq_true (ran : allocprocRest k p = (t, true)) :
    ∃ m frame, kalloc k.mem = (m, some frame) ∧ SameMemory (k.setMem m) t ∧
      ∃ level fqtick isstride, t.proc = update k.proc p { k.proc p with
        kstack := some frame, level := level, fqtick := fqtick, mystride := 0, isstride :=
          isstride } := by
  unfold allocprocRest at ran
  split at ran
  · cases ran
  rename_i u allocated
  obtain ⟨m, page, taken, same⟩ := allocStack_eq_true allocated
  have memory : SameMemory (k.setMem m) u := by
    rw [same]
    exact setProc_memory _ p _
  have table : u.proc = update k.proc p { k.proc p with kstack := some page } := by
    rw [same]
    rfl
  refine ⟨m, page, taken, ?_, ?_⟩
  · cases ran
    exact (memory.trans (push_memory u p 0)).trans (setProc_memory _ p _)
  have result : t.proc = update (push_MLFQ u p 0).1.proc p
      { (push_MLFQ u p 0).1.proc p with mystride := 0 } := by
    cases ran
    rfl
  rcases push_cases u p 0 with ⟨pushed, _⟩ | ⟨i, v, _, _, pushed, proc, _⟩
  · rw [pushed] at result
    simp only [table, update_self, update_idem] at result
    exact ⟨_, _, _, result⟩
  · rw [pushed] at result
    simp only [proc, table, update_self, update_idem] at result
    exact ⟨_, _, _, result⟩

theorem wakeup1_parent (k : Kernel) (chan : Option Chan) (q : Nat) :
    ((wakeup1 k chan).proc q).parent = (k.proc q).parent := by
  unfold wakeup1
  dsimp only
  split
  · rfl
  · rfl

theorem adopt_parent (p : Nat) (k : Kernel) (c q : Nat) : ((adopt p k c).proc q).parent =
    if q = c ∧ (k.proc q).parent = some p then k.initproc else (k.proc q).parent := by
  have moved : (k.proc c).parent = some p →
      ((k.setProc c { k.proc c with parent := k.initproc }).proc q).parent =
      if q = c ∧ (k.proc q).parent = some p then k.initproc else (k.proc q).parent := by
    intro child
    rw [setProc_proc, update_apply]
    by_cases here : q = c
    · rw [if_pos here, if_pos ⟨here, here ▸ child⟩]
    · rw [if_neg here, if_neg fun both => here both.1]
  unfold adopt
  split
  · rename_i child
    dsimp only
    split
    · rw [wakeup1_parent]
      exact moved child
    · exact moved child
  · rename_i other
    rw [if_neg]
    rintro ⟨here, child⟩
    rw [here] at child
    exact other child

/-- Every child of `p` in the table gets init as its parent. -/
theorem reparent_parent (k : Kernel) (p q : Nat) (inside : q < NPROC) :
    ((reparent k p).proc q).parent =
      if (k.proc q).parent = some p then k.initproc else (k.proc q).parent := by
  have loop : ∀ (list : List Nat) (k : Kernel), ((list.foldl (adopt p) k).proc q).parent =
      if q ∈ list ∧ (k.proc q).parent = some p then k.initproc else (k.proc q).parent := by
    intro list
    induction list with
    | nil =>
      intro k
      rw [if_neg fun both => not_mem_nil both.1]
      rfl
    | cons c rest ih =>
      intro k
      rw [foldl_cons, ih, adopt_parent, (adopt_only p k c).memory.initproc]
      by_cases child : (k.proc q).parent = some p
      · by_cases here : q = c
        · subst here
          simp only [child, mem_cons, true_or, true_and, if_true, ite_self]
        · simp only [child, here, mem_cons, and_true, if_false, false_or]
      · simp only [child, and_false, if_false]
  rw [reparent_eq, loop]
  simp only [mem_range, inside, true_and]

theorem orphan_parent (k : Kernel) (chan : Option Chan) (p q : Nat) (inside : q < NPROC) :
    ((orphan k chan p).proc q).parent =
      if (k.proc q).parent = some p then k.initproc else (k.proc q).parent := by
  unfold orphan
  rw [reparent_parent _ _ _ inside, wakeup1_parent]
  rfl

theorem unschedule_memory (ran : unschedule k master = .ok t) : SameMemory k t := by
  unfold unschedule at ran
  split at ran
  · obtain ⟨stride, _, ran⟩ := bind_eq_ok.mp ran
    cases ran
    exact ⟨rfl, rfl, rfl, rfl⟩
  obtain ⟨⟨u, found⟩, popped, ran⟩ := bind_eq_ok.mp ran
  cases ran
  unfold pop_MLFQ at popped
  dsimp only at popped
  split at popped
  · split at popped
    all_goals
      cases popped
      exact ⟨rfl, rfl, rfl, rfl⟩
  · cases popped

theorem exit_memory (ran : exit k p = .ok t) : SameMemory k t := by
  obtain ⟨v, w, orphaned, unscheduled, ended⟩ := exit_eq ran
  rw [ended]
  have first := orphan_only k ((k.proc (k.masterOf p)).parent.map Chan.proc) (k.masterOf p)
  rw [← orphaned] at first
  exact (first.trans (endWorkers_only v _)).memory.trans
    ((unschedule_memory unscheduled).trans (setProc_memory w _ _))

/-- `thread_join` looks at a slot in use, or returns at once. -/
theorem thread_join_eq {thread : Nat} (ran : thread_join k p thread = .ok (t, progress)) :
    ∃ w, k.slotOf thread = some w ∧ ((k.proc w).state = .unused ∧ t = k ∧
      progress = .returned (some 0) ∨ joinLoop k p w = .ok (t, progress)) := by
  unfold thread_join at ran
  split at ran
  · cases ran
  rename_i w found
  refine ⟨w, found, ?_⟩
  split at ran
  · rename_i unused
    cases ran
    exact .inl ⟨unused, rfl, rfl⟩
  · exact .inr ran

/-- `fork` finds no slot, gives its slot back, or makes a child. -/
theorem fork_eq (ran : fork k p = .ok (t, made)) :
    made = none ∧ t = k ∨
    ∃ np, k.unusedSlot = some np ∧ (made = none ∧ allocprocRest (k.claim np) np = (t, false) ∨
      ∃ u, allocprocRest (k.claim np) np = (u, true) ∧ forkRest u p np = .ok (t, made)) := by
  unfold fork allocproc at ran
  cases found : k.unusedSlot with
  | none =>
    rw [found] at ran
    cases ran
    exact .inl ⟨rfl, rfl⟩
  | some np =>
    rw [found] at ran
    dsimp only at ran
    right
    refine ⟨np, rfl, ?_⟩
    rcases allocated : allocprocRest (k.claim np) np with ⟨u, done⟩
    rw [allocated] at ran
    cases done with
    | false =>
      cases ran
      exact .inl ⟨rfl, rfl⟩
    | true => exact .inr ⟨u, rfl, ran⟩

theorem thread_create_eq (ran : thread_create k p arg = .ok (t, made)) :
    k.unusedSlot = none ∧ made = none ∧ t = k ∨
    ∃ np, k.unusedSlot = some np ∧
      (made = none ∧ allocthreadRest (k.claim np) (k.masterOf p) np = .ok (t, false) ∨
      ∃ u, allocthreadRest (k.claim np) (k.masterOf p) np = .ok (u, true) ∧
        threadRest u (k.masterOf p) np arg = .ok (t, made)) := by
  unfold thread_create allocthread at ran
  dsimp only at ran
  obtain ⟨⟨u, thrd⟩, allocated, ran⟩ := bind_eq_ok.mp ran
  cases found : k.unusedSlot with
  | none =>
    rw [found] at allocated
    cases allocated
    cases ran
    exact .inl ⟨rfl, rfl, rfl⟩
  | some np =>
    rw [found] at allocated
    dsimp only at allocated
    obtain ⟨⟨v, done⟩, worked, allocated⟩ := bind_eq_ok.mp allocated
    right
    refine ⟨np, rfl, ?_⟩
    cases done with
    | false =>
      cases allocated
      cases ran
      exact .inl ⟨rfl, worked⟩
    | true =>
      cases allocated
      exact .inr ⟨_, worked, ran⟩

theorem fork_table (ran : fork k p = .ok (t, made)) :
    t.initproc = k.initproc ∧ (t.proc = k.proc ∨ ∃ np new, k.unusedSlot = some np ∧
      t.proc = update k.proc np new ∧ new.workerthread = (k.proc np).workerthread ∧
      new.master = (k.proc np).master ∧
      (new.state = .unused ∨ new.state = .runnable ∧ new.parent = some p)) := by
  rcases fork_eq ran with ⟨_, same⟩ | ⟨np, found, ⟨_, failed⟩ | ⟨u, allocated, rest⟩⟩
  · rw [same]
    exact ⟨rfl, .inl rfl⟩
  · rw [(allocStack_false (allocprocRest_false failed)).1, setProc_proc, claim_proc, update_idem,
      update_self]
    exact ⟨rfl, .inr ⟨np, _, found, rfl, rfl, rfl, .inl rfl⟩⟩
  obtain ⟨m, frame, _, memory, level, fqtick, isstride, proc⟩ := allocprocRest_eq_true allocated
  rw [claim_proc, update_idem, update_self] at proc
  obtain ⟨e, dir, m', _, _, cases⟩ := forkRest_eq rest
  rcases cases with ⟨_, _, page, _, result⟩ | ⟨d, new, _, _, result⟩
  · rw [result, setProc_proc, setMem_proc, proc, update_idem, update_self]
    exact ⟨memory.initproc, .inr ⟨np, _, found, rfl, rfl, rfl, .inl rfl⟩⟩
  · rw [result, setProc_proc, setDir_proc, setMem_proc, proc, update_idem, update_self]
    exact ⟨memory.initproc, .inr ⟨np, _, found, rfl, rfl, rfl, .inr ⟨rfl, rfl⟩⟩⟩

/-- The parts of `userinit`: before `allocproc` it sets up the scheduler. -/
theorem userinit_eq {m : Mem} {code : Nat → UInt8}
    (booted : userinit (Kernel.boot m) code = .ok k) :
    ∃ v u p m₁ d dir m₂ dir₂, v.proc = (Kernel.boot m).proc ∧ SameMemory (Kernel.boot m) v ∧
      allocproc v = (u, some p) ∧ setupkvm u.mem = .ok (m₁, some (d, dir)) ∧
      inituvm m₁ dir code = .ok (m₂, dir₂) ∧ k.initproc = some p ∧ k.mem = m₂ ∧
      k.pgdirs = update u.pgdirs d (some dir₂) ∧ k.nextpid = u.nextpid ∧
      k.proc = update u.proc p { u.proc p with
        pgdir := some d, sz := PGSIZE, state := .runnable } := by
  unfold userinit at booted
  dsimp only at booted
  split at booted
  · cases booted
  rename_i u p allocated
  obtain ⟨⟨m₁, made⟩, setup, booted⟩ := bind_eq_ok.mp booted
  cases made with
  | none => cases booted
  | some pair =>
    obtain ⟨d, dir⟩ := pair
    dsimp only at booted
    obtain ⟨⟨m₂, dir₂⟩, initialized, booted⟩ := bind_eq_ok.mp booted
    cases booted
    refine ⟨_, u, p, m₁, d, dir, m₂, dir₂, ?_, ?_, allocated, setup, initialized, rfl, rfl,
      rfl, rfl, rfl⟩
    · rfl
    · exact ⟨rfl, rfl, rfl, rfl⟩

/-- After `userinit` the first slot holds a process and the others are empty. -/
theorem userinit_slot {m : Mem} {code : Nat → UInt8}
    (booted : userinit (Kernel.boot m) code = .ok k) :
    k.initproc = some 0 ∧ k.nextpid = 2 ∧ ∃ frame level fqtick isstride d,
      k.proc = update (Kernel.boot m).proc 0 { (Kernel.boot m).proc 0 with
        pid := 1, kstack := some frame, level := level, fqtick := fqtick, isstride := isstride
        pgdir := some d, sz := PGSIZE, state := .runnable } := by
  obtain ⟨v, u, p, _, d, _, _, _, empty, memory, allocated, _, _, isInit, _, _, nextpid, proc⟩ :=
    userinit_eq booted
  obtain ⟨found, taken⟩ := allocproc_some allocated
  have first : v.unusedSlot = some 0 := by
    unfold Kernel.unusedSlot
    rw [empty]
    rfl
  cases first.symm.trans found
  obtain ⟨_, frame, _, claimed, level, fqtick, isstride, slot⟩ := allocprocRest_eq_true taken
  have counted : v.nextpid = 1 := memory.nextpid
  refine ⟨isInit, ?_, frame, level, fqtick, isstride, d, ?_⟩
  · rw [nextpid, claimed.nextpid]
    exact congrArg (· + 1) counted
  · rw [proc, slot, claim_proc, empty, counted]
    simp only [update_self, update_idem]
    rfl

end Xv6.Process
