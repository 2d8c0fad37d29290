import Xv6.Lib.Scan
import Xv6.Lib.Update
import Xv6.Vm.Model

/- The process table with the scheduler's tables, and myscheduler.c. A `struct proc *` is an index
of `ptable.proc`, or `none` for null; `mystride` is an index of `stride_arr`. -/
namespace Xv6.Process

open Function

inductive ProcState where
  | unused
  | embryo
  | sleeping
  | runnable
  | running
  | zombie
deriving DecidableEq

/-- What a process sleeps on: a process, or something else in the kernel. -/
inductive Chan where
  | proc (p : Nat)
  | other (n : Nat)
deriving DecidableEq

/-- `struct proc` without the trap frame, the context, the open files, the directory and the
name. -/
structure Proc where
  sz : Nat
  pgdir : Option Nat
  kstack : Option Nat
  state : ProcState
  pid : Nat
  parent : Option Nat
  chan : Option Chan
  killed : Bool
  mystride : Nat
  fqtick : Nat
  level : Nat
  isstride : Bool
  isthread : Bool
  curthread : Nat
  master : Option Nat
  workerthread : Nat → Option Nat
  retvals : Nat → Nat
  threadcnt : Int
  freeusrspace : Nat → Nat
  tindex : Nat

structure Stride where
  stride : Int
  pass : Int
  share : Int
  proc : Option Nat

/-- `struct FQ`; nothing reads `timeallot`. -/
structure FQ where
  total : Int
  current : Nat
  holdingproc : Nat → Option Nat

structure Kernel where
  proc : Nat → Proc
  nextpid : Nat
  initproc : Option Nat
  queues : Nat → FQ
  strides : Nat → Stride
  tick : Nat
  mem : Vm.Mem
  pgdirs : Nat → Option Vm.Pgdir

def Kernel.setProc (k : Kernel) (p : Nat) (new : Proc) : Kernel :=
  { k with proc := update k.proc p new }

def Kernel.setQueue (k : Kernel) (level : Nat) (queue : FQ) : Kernel :=
  { k with queues := update k.queues level queue }

def Kernel.setStride (k : Kernel) (j : Nat) (entry : Stride) : Kernel :=
  { k with strides := update k.strides j entry }

section

variable (k : Kernel) (p level j : Nat) (new : Proc) (queue : FQ) (entry : Stride)

@[simp] theorem setProc_proc : (k.setProc p new).proc = update k.proc p new := rfl
@[simp] theorem setProc_queues : (k.setProc p new).queues = k.queues := rfl
@[simp] theorem setProc_strides : (k.setProc p new).strides = k.strides := rfl
@[simp] theorem setProc_initproc : (k.setProc p new).initproc = k.initproc := rfl
@[simp] theorem setProc_mem : (k.setProc p new).mem = k.mem := rfl
@[simp] theorem setProc_pgdirs : (k.setProc p new).pgdirs = k.pgdirs := rfl
@[simp] theorem setQueue_proc : (k.setQueue level queue).proc = k.proc := rfl
@[simp] theorem setQueue_queues :
    (k.setQueue level queue).queues = update k.queues level queue := rfl
@[simp] theorem setStride_proc : (k.setStride j entry).proc = k.proc := rfl
@[simp] theorem setStride_queues : (k.setStride j entry).queues = k.queues := rfl

end

theorem setProc_self {k : Kernel} {p : Nat} {new : Proc} : (k.setProc p new).proc p = new :=
  update_self _ _ _

theorem setProc_of_ne {k : Kernel} {p q : Nat} {new : Proc} (other : q ≠ p) :
    (k.setProc p new).proc q = k.proc q :=
  update_of_ne other _ _

/-- Arithmetic on `int`. -/
def int (n : Int) : Int := n.bmod (2 ^ 32)

/-- Division of `int`s. -/
def divide (a b : Int) : Except Stop Int := if b = 0 then .error .divideError
    else .ok (int (a.tdiv b))

/-- Whether there was a free slot. -/
def push_MLFQ (k : Kernel) (p level : Nat) : Kernel × Bool :=
  match Scan.first (fun i => ((k.queues level).holdingproc i).isNone) NPROC 0 with
  | none => (k, false)
  | some i =>
    let queue := k.queues level
    let k := k.setQueue level { queue with
      total := queue.total + 1
      holdingproc := update queue.holdingproc i (some p) }
    (k.setProc p { k.proc p with level := level, fqtick := 0, mystride := 0, isstride := false },
      true)

/-- Whether the process was in the queue of its level; there are three queues. -/
def pop_MLFQ (k : Kernel) (p : Nat) : Except Stop (Kernel × Bool) :=
  let level := (k.proc p).level
  if level < 3 then
    match Scan.first (fun i => (k.queues level).holdingproc i == some p) NPROC 0 with
    | none => .ok (k, false)
    | some i =>
      let queue := k.queues level
      let k := k.setQueue level { queue with
        total := queue.total - 1
        holdingproc := update queue.holdingproc i none }
      .ok (k.setProc p { k.proc p with fqtick := 0 }, true)
  else .error .undefined

def level_change_MLFQ (k : Kernel) (p level : Nat) : Except Stop (Kernel × Bool) := do
  let (k, found) ← pop_MLFQ k p
  if found then .ok (push_MLFQ k p level) else .ok (k, false)

/-- The loop goes through the whole process table. -/
def boost_priority (k : Kernel) : Except Stop Kernel := do
  let k ← (List.range NPROC).foldlM (fun k p =>
    if (k.proc p).level = 1 ∨ (k.proc p).level = 2 then do
      let (k, _) ← level_change_MLFQ k p 0
      .ok k
    else .ok k) k
  .ok { k with tick := 0 }

/-- For a process without threads. In a thread group the source reads a variable that it never
set. -/
def increasealltick (k : Kernel) (p : Nat) : Except Stop Kernel :=
  if (k.proc p).isthread then .error .undefined
  else .ok (k.setProc p { k.proc p with fqtick := (k.proc p).fqtick + 1 })

/-- The end of `tick_add_MLFQ` for a process that has used `allot` ticks at its level. -/
def quantum (k : Kernel) (allot length : Nat) : Except Stop (Kernel × Bool) :=
  if allot % length = 0 then do
    let k ← if k.tick > 200 then boost_priority k else .ok k
    .ok (k, true)
  else .ok (k, false)

/-- Whether process `p`, which runs at a timer interrupt, has to yield. -/
def tick_add_MLFQ (k : Kernel) (p : Nat) : Except Stop (Kernel × Bool) := do
  let now := k.strides (k.proc p).mystride
  let k := k.setStride (k.proc p).mystride { now with pass := int (now.pass + now.stride) }
  if (k.proc p).isstride then do
    let k ← increasealltick k p
    .ok (k, decide ((k.proc p).fqtick > 5))
  else do
    let k ← increasealltick { k with tick := k.tick + 1 } p
    let allot := (k.proc p).fqtick
    if (k.proc p).level = 0 then do
      let (k, _) ← if allot ≥ 20 then level_change_MLFQ k p 1 else .ok (k, false)
      quantum k allot 5
    else if (k.proc p).level = 1 then do
      let (k, _) ← if allot ≥ 40 then level_change_MLFQ k p 2 else .ok (k, false)
      quantum k allot 10
    else if (k.proc p).level = 2 then quantum k allot 20
    else .ok (k, true)

/-- Set the `fqtick` of a list of processes to zero; a null pointer is not checked for. -/
def clearTicks (k : Kernel) : List (Option Nat) → Except Stop Kernel
  | [] => .ok k
  | none :: _ => .error .undefined
  | some p :: rest => clearTicks (k.setProc p { k.proc p with fqtick := 0 }) rest

def setthreadtick (k : Kernel) (thread : Nat) : Except Stop Kernel :=
  let master := (k.proc thread).master.getD thread
  let k := k.setProc master { k.proc master with fqtick := 0 }
  if (k.proc master).isthread
    then clearTicks k ((List.range NTHRE).map (k.proc master).workerthread)
  else .ok k

/-- `set_cpu_share` called by process `p`; whether it returns 0. -/
def set_cpu_share (k : Kernel) (p : Nat) (portion : Int) : Except Stop (Kernel × Bool) := do
  let total := (List.range (NPROC - 1)).foldl (fun total i =>
    if (k.strides (i + 1)).stride ≠ 0 then int (total + (k.strides (i + 1)).share)
      else total) portion
  if total > 80 then .ok (k, false)
  else do
    let share := int (100 - total)
    let stride ← divide MAXTICKET share
    let k := k.setStride 0 { k.strides 0 with share := share, stride := stride }
    let minPass := (List.range NPROC).foldl (fun least l =>
      if (k.strides l).stride ≠ 0 ∧ least > (k.strides l).pass then (k.strides l).pass else least)
      220000000
    match Scan.first (fun j => (k.strides j).stride == 0) NPROC 0 with
    -- without a free entry the source goes on behind the end of the array
    | none => .error .undefined
    | some j => do
      let stride ← divide MAXTICKET portion
      let k := k.setStride j ⟨stride, minPass, portion, some p⟩
      let k := k.setProc p { k.proc p with mystride := j, isstride := true }
      let k ← setthreadtick k p
      let (k, _) ← pop_MLFQ k p
      .ok (k.setProc p { k.proc p with level := 3 }, true)

end Xv6.Process
