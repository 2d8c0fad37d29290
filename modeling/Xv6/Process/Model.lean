import Xv6.Lib.Outcome
import Xv6.Lib.Run
import Xv6.Process.Scheduler

/- proc.c: creating, ending and reclaiming processes and threads. A call is one step here; a call
that sleeps is repeated after its wake-up. -/
namespace Xv6.Process

open Function Vm

/-- Where a call of `wait` or `thread_join` stands. -/
inductive Progress where
  | returned (value : Option Nat)
  | sleeps
deriving DecidableEq

/-- The directory behind a pointer. -/
def Kernel.dir (k : Kernel) : Option Nat → Except Stop (Nat × Pgdir)
  | none => .error .undefined
  | some d =>
    match k.pgdirs d with
    | some dir => .ok (d, dir)
    | none => .error .undefined

def Kernel.setMem (k : Kernel) (m : Mem) : Kernel := { k with mem := m }

def Kernel.setDir (k : Kernel) (d : Nat) (dir : Option Pgdir) : Kernel :=
  { k with pgdirs := update k.pgdirs d dir }

@[simp] theorem setMem_proc (k : Kernel) (m : Mem) : (k.setMem m).proc = k.proc := rfl
@[simp] theorem setMem_queues (k : Kernel) (m : Mem) : (k.setMem m).queues = k.queues := rfl
@[simp] theorem setDir_proc (k : Kernel) (d : Nat) (dir : Option Pgdir) :
    (k.setDir d dir).proc = k.proc := rfl
@[simp] theorem setDir_queues (k : Kernel) (d : Nat) (dir : Option Pgdir) :
    (k.setDir d dir).queues = k.queues := rfl

/-- `kfree` of a pointer that may be null. -/
def Kernel.free (k : Kernel) : Option Nat → Except Stop Kernel
  | none => .error .kfree1
  | some frame => .ok (k.setMem (kfree k.mem frame))

def Kernel.freevm (k : Kernel) : Option Nat → Except Stop Kernel
  | none => .error .freevmNoPgdir
  | some d => do
    let (d, dir) ← k.dir (some d)
    let m ← Vm.freevm k.mem d dir
    .ok ((k.setMem m).setDir d none)

/-- `master` in `exit`, `growproc` and `thread_create` called by `p`. -/
def Kernel.masterOf (k : Kernel) (p : Nat) : Nat := (k.proc p).master.getD p

/-- The slot that `allocproc` and `allocthread` look for. -/
def Kernel.unusedSlot (k : Kernel) : Option Nat :=
  Scan.first (fun p => (k.proc p).state == .unused) NPROC 0

/-- The slot gets its pid, under `ptable.lock`. -/
def Kernel.claim (k : Kernel) (p : Nat) : Kernel :=
  { k.setProc p { k.proc p with state := .embryo, pid := k.nextpid } with nextpid := k.nextpid + 1 }

/-- The kernel stack of a slot, and whether there was memory for it. -/
def Kernel.allocStack (k : Kernel) (p : Nat) : Kernel × Bool :=
  match kalloc k.mem with
  | (m, none) => ((k.setMem m).setProc p { k.proc p with kstack := none, state := .unused }, false)
  | (m, some frame) => ((k.setMem m).setProc p { k.proc p with kstack := some frame }, true)

/-- `allocproc` after it has released `ptable.lock`. -/
def allocprocRest (k : Kernel) (p : Nat) : Kernel × Bool :=
  match k.allocStack p with
  | (k, false) => (k, false)
  | (k, true) =>
    let (k, _) := push_MLFQ k p 0
    (k.setProc p { k.proc p with mystride := 0 }, true)

def allocproc (k : Kernel) : Kernel × Option Nat :=
  match k.unusedSlot with
  | none => (k, none)
  | some p =>
    match allocprocRest (k.claim p) p with
    | (k, false) => (k, none)
    | (k, true) => (k, some p)

/-- `allocthread` after it has released `ptable.lock`. -/
def allocthreadRest (k : Kernel) (master p : Nat) : Except Stop (Kernel × Bool) :=
  match k.allocStack p with
  | (k, false) => .ok (k, false)
  | (k, true) =>
    let m := k.proc master
    let k := k.setProc p { k.proc p with
      parent := m.parent, master := some master, pgdir := m.pgdir, isthread := true
      fqtick := m.fqtick, level := m.level, mystride := m.mystride, isstride := m.isstride }
    let k := k.setProc master { k.proc master with isthread := true }
    match Scan.first (fun i => ((k.proc master).workerthread i).isNone) NTHRE 0 with
    | none => .error .noMoreThreading
    | some i =>
      let m := k.proc master
      let k := k.setProc master { m with
        workerthread := update m.workerthread i (some p)
        threadcnt := m.threadcnt + 1 }
      .ok (k.setProc p { k.proc p with tindex := i }, true)

def allocthread (k : Kernel) (master : Nat) : Except Stop (Kernel × Option Nat) :=
  match k.unusedSlot with
  | none => .ok (k, none)
  | some p => do
    match ← allocthreadRest (k.claim p) master p with
    | (k, false) => .ok (k, none)
    | (k, true) => .ok (k, some p)

/-- Whether `allocusrstack` returns 0. A stack that was given back is used before new memory. -/
def allocusrstack (k : Kernel) (master new : Nat) : Except Stop (Kernel × Bool) := do
  let m := k.proc master
  let (d, dir) ← k.dir m.pgdir
  match Scan.first (fun i => m.freeusrspace i != 0) NTHRE 0 with
  | some i => do
    let start := m.freeusrspace i
    let (mem, dir, sz) ← allocuvm k.mem dir start (start + 2 * PGSIZE)
    let k := (k.setMem mem).setProc new { k.proc new with sz := sz }
    if sz = 0 then .ok (k.setDir d (some dir), false)
    else do
      let k := k.setProc master { k.proc master with
        freeusrspace := update (k.proc master).freeusrspace i 0 }
      let dir ← clearpteu dir ((sz - 2 * PGSIZE) / PGSIZE)
      .ok (k.setDir d (some dir), true)
  | none => do
    let (mem, dir, sz) ← allocuvm k.mem dir m.sz (m.sz + 2 * PGSIZE)
    let k := (k.setMem mem).setProc new { k.proc new with sz := sz }
    if sz = 0 then .ok (k.setDir d (some dir), false)
    else do
      let k := k.setProc master { k.proc master with sz := sz }
      let dir ← clearpteu dir ((sz - 2 * PGSIZE) / PGSIZE)
      .ok (k.setDir d (some dir), true)

/-- Four bytes of a `uint`. -/
def wordBytes (n : Nat) : List UInt8 :=
  [UInt8.ofNat n, UInt8.ofNat (n / 256), UInt8.ofNat (n / 65536), UInt8.ofNat (n / 16777216)]

/-- `thread_create` after `allocthread`; the new thread, or `none` for -1. The thread id is stored
at a user address, which is left out. -/
def threadRest (k : Kernel) (master thrd arg : Nat) : Except Stop (Kernel × Option Nat) := do
  match ← allocusrstack k master thrd with
  | (k, false) => .ok (k, none)
  | (k, true) => do
    let (_, dir) ← k.dir (k.proc master).pgdir
    let sp := (k.proc thrd).sz - 12
    let (mem, done) ← copyout k.mem dir sp (wordBytes 0xffffffff ++ wordBytes arg ++ wordBytes 0)
    let k := k.setMem mem
    if done then .ok (k.setProc thrd { k.proc thrd with state := .runnable }, some thrd)
    else .ok (k, none)

def thread_create (k : Kernel) (curproc arg : Nat) : Except Stop (Kernel × Option Nat) := do
  let master := k.masterOf curproc
  match ← allocthread k master with
  | (k, none) => .ok (k, none)
  | (k, some thrd) => threadRest k master thrd arg

def wakeup1 (k : Kernel) (chan : Option Chan) : Kernel :=
  { k with
    proc := fun p =>
      if p < NPROC ∧ (k.proc p).state = .sleeping ∧ (k.proc p).chan = chan then
        { k.proc p with state := .runnable }
      else k.proc p }

/-- The loop that passes the children of `parent` to init. -/
def reparent (k : Kernel) (parent : Nat) : Kernel :=
  (List.range NPROC).foldl (fun k p =>
    if (k.proc p).parent = some parent then
      let k := k.setProc p { k.proc p with parent := k.initproc }
      if (k.proc p).state = .zombie then wakeup1 k (k.initproc.map Chan.proc) else k
    else k) k

/-- Whether `deallocstack` returns 0. -/
def deallocstack (k : Kernel) (worker : Nat) : Except Stop (Kernel × Bool) := do
  let k ← k.free (k.proc worker).kstack
  match (k.proc worker).master with
  | none => .error .undefined
  | some master =>
    match Scan.first (fun i => (k.proc master).freeusrspace i == 0) NTHRE 0 with
    | none => .ok (k, false)
    | some i => do
      let w := k.proc worker
      let (d, dir) ← k.dir w.pgdir
      let (mem, dir, sz) ← deallocuvm k.mem dir w.sz ((w.sz + 2 ^ 32 - 2 * PGSIZE) % 2 ^ 32)
      let k := (k.setMem mem).setDir d (some dir)
      let k := k.setProc master { k.proc master with
        freeusrspace := update (k.proc master).freeusrspace i sz }
      .ok (k, sz != 0)

/-- The loop of `thread_join`, called by `curproc`, when it looks at slot `join`. The value is what
`*retval` gets, or `none` for -1. -/
def joinLoop (k : Kernel) (curproc join : Nat) : Except Stop (Kernel × Progress) :=
  if (k.proc join).state ≠ .zombie then
    .ok (k.setProc curproc { k.proc curproc with
      chan := (k.proc join).master.map Chan.proc, state := .sleeping }, .sleeps)
  else do
    match ← deallocstack k join with
    | (k, false) => .ok (k, .returned none)
    | (k, true) =>
      match (k.proc join).master with
      | none => .error .undefined
      | some master =>
        let value := (k.proc master).retvals (k.proc join).tindex
        let k := k.setProc master { k.proc master with
          workerthread := update (k.proc master).workerthread (k.proc join).tindex none }
        let k := k.setProc join { k.proc join with
          state := .unused, kstack := none, killed := false }
        .ok (k, .returned (some value))

/-- The first slot with a pid, in use or not. -/
def Kernel.slotOf (k : Kernel) (pid : Nat) : Option Nat :=
  Scan.first (fun p => (k.proc p).pid == pid) NPROC 0

/-- `thread_join` up to its first sleep. -/
def thread_join (k : Kernel) (curproc thread : Nat) : Except Stop (Kernel × Progress) :=
  match k.slotOf thread with
  -- the loop ends behind the table
  | none => .error .undefined
  | some p =>
    if (k.proc p).state = .unused then .ok (k, .returned (some 0)) else joinLoop k curproc p

/-- The slots in `workerthread` of a master. -/
def Kernel.workers (k : Kernel) (master : Nat) : List Nat :=
  (List.range NTHRE).filterMap (k.proc master).workerthread

/-- The loop of `exit` over the workers. -/
def endWorkers (k : Kernel) (master : Nat) : Kernel :=
  (k.workers master).foldl (fun k w => k.setProc w { k.proc w with state := .zombie }) k

/-- `exit` takes the process out of its queue, or gives its share back to the queues. -/
def unschedule (k : Kernel) (master : Nat) : Except Stop Kernel :=
  if (k.proc master).isstride then do
    let j := (k.proc master).mystride
    let share := int ((k.strides 0).share + (k.strides j).share)
    let stride ← divide MAXTICKET share
    let k := k.setStride 0 { k.strides 0 with share := share, stride := stride }
    .ok (k.setStride j { k.strides j with stride := 0, pass := 0, share := 0 })
  else do
    let (k, _) ← pop_MLFQ k master
    .ok k

/-- The end of `exit` under `ptable.lock`, with the test in `sched`. -/
def exit (k : Kernel) (curproc : Nat) : Except Stop Kernel :=
  let master := k.masterOf curproc
  if k.initproc = some curproc ∨ ∃ w ∈ k.workers master, k.initproc = some w
    then .error .initExiting
  else do
    let k := reparent (wakeup1 k ((k.proc master).parent.map Chan.proc)) master
    let k ← unschedule (endWorkers k master) master
    let k := k.setProc master { k.proc master with state := .zombie }
    if (k.proc curproc).state = .running then .error .schedRunning else .ok k

/-- The end of `thread_exit` under `ptable.lock`. -/
def thread_exit (k : Kernel) (curproc retval : Nat) : Except Stop Kernel :=
  match (k.proc curproc).master with
  | none => exit k curproc
  | some master =>
    let k := reparent (wakeup1 k (some (.proc master))) curproc
    let k := k.setProc master { k.proc master with
      retvals := update (k.proc master).retvals (k.proc curproc).tindex retval }
    let k := k.setProc curproc { k.proc curproc with state := .zombie }
    .ok (k.setProc master { k.proc master with threadcnt := (k.proc master).threadcnt - 1 })

/-- `wait` frees the threads of the child that it found. -/
def reclaimWorkers (k : Kernel) (p : Nat) : Except Stop Kernel :=
  (List.range NTHRE).foldlM (fun k i =>
    match (k.proc p).workerthread i with
    | none => .ok k
    | some w => do
      let k ← k.free (k.proc w).kstack
      let k := k.setProc w { k.proc w with
        kstack := none, parent := none, pid := 0, state := .unused, killed := false }
      .ok (k.setProc p { k.proc p with
        workerthread := update (k.proc p).workerthread i none })) k

/-- The children that `wait` counts. -/
def Kernel.isChild (k : Kernel) (curproc p : Nat) : Bool :=
  (k.proc p).parent == some curproc && (k.proc p).master == none

/-- The child that `wait` reclaims. -/
def Kernel.deadChild (k : Kernel) (curproc : Nat) : Option Nat :=
  Scan.first (fun p => k.isChild curproc p && (k.proc p).state == .zombie) NPROC 0

/-- One pass of `wait`; the value is the child's pid, or `none` for -1. -/
def wait (k : Kernel) (curproc : Nat) : Except Stop (Kernel × Progress) :=
  match k.deadChild curproc with
  | some p => do
    let k ← reclaimWorkers k p
    let pid := (k.proc p).pid
    let k ← k.free (k.proc p).kstack
    let k := k.setProc p { k.proc p with kstack := none }
    let k ← k.freevm (k.proc p).pgdir
    .ok (k.setProc p { k.proc p with pid := 0, parent := none, killed := false, state := .unused },
      .returned (some pid))
  | none =>
    if (Scan.first (k.isChild curproc) NPROC 0).isNone ∨ (k.proc curproc).killed then
      .ok (k, .returned none)
    else
      .ok (k.setProc curproc { k.proc curproc with
        chan := some (.proc curproc), state := .sleeping }, .sleeps)

/-- `fork` after `allocproc`; the child's slot, or `none` for -1. -/
def forkRest (k : Kernel) (curproc np : Nat) : Except Stop (Kernel × Option Nat) := do
  let (_, dir) ← k.dir (k.proc curproc).pgdir
  match ← copyuvm k.mem dir (k.proc curproc).sz with
  | (m, none) => do
    let k ← (k.setMem m).free (k.proc np).kstack
    .ok (k.setProc np { k.proc np with pgdir := none, kstack := none, state := .unused }, none)
  | (m, some (d, new)) =>
    let k := (k.setMem m).setDir d (some new)
    .ok (k.setProc np { k.proc np with
      pgdir := some d, sz := (k.proc curproc).sz, parent := some curproc, state := .runnable },
      some np)

def fork (k : Kernel) (curproc : Nat) : Except Stop (Kernel × Option Nat) :=
  match allocproc k with
  | (k, none) => .ok (k, none)
  | (k, some np) => forkRest k curproc np

/-- The kernel before `userinit`: all of its data is zero. -/
def Kernel.boot (m : Mem) : Kernel :=
  { proc := fun _ => ⟨0, none, none, .unused, 0, none, none, false, 0, 0, 0, false, false, 0, none,
      fun _ => none, fun _ => 0, 0, fun _ => 0, 0⟩
    nextpid := 1
    initproc := none
    queues := fun _ => ⟨0, 0, fun _ => none⟩
    strides := fun _ => ⟨0, 0, 0, none⟩
    tick := 0
    mem := m
    pgdirs := fun _ => none }

/-- `inituvm`: one page at address 0, with the code of the first process. -/
def inituvm (m : Mem) (dir : Pgdir) (code : Nat → UInt8) : Except Stop (Mem × Pgdir) :=
  match kalloc m with
  | (_, none) => .error .undefined
  | (m, some frame) => do
    let (m, dir, _) ← mappages m dir 0 ⟨frame, true, true⟩
    .ok ({ m with page := update m.page frame code }, dir)

/-- `userinit`. The stride of entry 0 is set to its share and then, with all others, to zero. -/
def userinit (k : Kernel) (code : Nat → UInt8) : Except Stop Kernel :=
  let k := k.setStride 0 { k.strides 0 with share := 20, pass := 0 }
  let k := { k with
    strides := fun j => if j < NPROC then { k.strides j with stride := 0, proc := none }
      else k.strides j
    queues := fun level => if level < 3 then ⟨0, 0, fun _ => none⟩ else k.queues level }
  match allocproc k with
  | (_, none) => .error .undefined
  | (k, some p) => do
    let k := { k.setStride 0 { k.strides 0 with proc := some p } with initproc := some p }
    match ← setupkvm k.mem with
    | (_, none) => .error .userinit
    | (m, some (d, dir)) => do
      let (m, dir) ← inituvm m dir code
      let k := (k.setMem m).setDir d (some dir)
      .ok (k.setProc p { k.proc p with pgdir := some d, sz := PGSIZE, state := .runnable })

/-- A machine with 512 free pages. -/
def smallMem : Mem := ⟨(List.range 512).map (· + 1), fun _ _ => 0⟩

/-- It after `userinit`. -/
def bootSmall : Option Kernel := (userinit (Kernel.boot smallMem) fun _ => 0).toOption

theorem run_small {M E : Type} (step : M → E → Option M) (start : Kernel → M) (events : List E)
    (P : Kernel → M → Prop) [∀ k m, Decidable (P k m)]
    (good : bootSmall.any (fun k => (Run.exec step (start k) events).any fun m => decide (P k m)) =
      true) :
    ∃ k m, userinit (Kernel.boot smallMem) (fun _ => 0) = .ok k ∧
      Run.exec step (start k) events = some m ∧ P k m := by
  obtain ⟨k, booted, good⟩ := (Option.any_eq_true _ _).mp good
  obtain ⟨m, ends, good⟩ := (Option.any_eq_true _ _).mp good
  exact ⟨k, m, Outcome.toOption_eq_some.mp booted, ends, of_decide_eq_true good⟩

/-- Whether `growproc` returns 0. -/
def growproc (k : Kernel) (curproc : Nat) (n : Int) : Except Stop (Kernel × Bool) := do
  let master := k.masterOf curproc
  let sz := (k.proc master).sz
  if n = 0 then .ok (k, true)
  else do
    let (d, dir) ← k.dir (k.proc master).pgdir
    let new := (((sz : Int) + n) % 2 ^ 32).toNat
    let (m, dir, sz) ←
      if n > 0 then allocuvm k.mem dir sz new else deallocuvm k.mem dir sz new
    let k := (k.setMem m).setDir d (some dir)
    if sz = 0 then .ok (k, false)
    else .ok (k.setProc master { k.proc master with sz := sz }, true)

/-- Whether `kill` returns 0. -/
def kill (k : Kernel) (pid : Nat) : Kernel × Bool :=
  match k.slotOf pid with
  | none => (k, false)
  | some p =>
    let k := k.setProc p { k.proc p with killed := true }
    if (k.proc p).state = .sleeping then
      (k.setProc p { k.proc p with state := .runnable }, true)
    else (k, true)

end Xv6.Process
