import Xv6.Lib.Ring
import Xv6.Process.Model

/- pipe.c: one pipe, and the processes that use it. A step is one turn of a loop by the process that
holds `p->lock`, one acquisition of the lock, or something that needs only `ptable.lock` and may
happen while the lock is held: `kill` and the choices of the scheduler. -/
namespace Xv6.Pipes

open Process

def PIPESIZE : Nat := 512

structure Pipe where
  data : Nat → UInt8
  nread : UInt32
  nwrite : UInt32
  readopen : Bool
  writeopen : Bool

/-- The loop condition of `pipewrite`. -/
def Pipe.full (p : Pipe) : Bool := p.nwrite == p.nread + UInt32.ofNat PIPESIZE

def Pipe.empty (p : Pipe) : Bool := p.nread == p.nwrite

def Pipe.freed (p : Pipe) : Bool := !p.readopen && !p.writeopen

/-- Where a process is in a call on the pipe. It holds `p->lock` except `outside` and when it has to
take the lock again after `sleep`. -/
inductive Point where
  | outside
  /-- The head of the loop of `pipewrite`, with `i` of `n` bytes stored. -/
  | writing (n i : Nat)
  /-- `sleep(&p->nwrite, &p->lock)`. -/
  | writeSleep (n i : Nat)
  | writeWoken (n i : Nat)
  /-- The head of the first loop of `piperead`. -/
  | reading (n : Nat)
  /-- `sleep(&p->nread, &p->lock)`. -/
  | readSleep (n : Nat)
  | readWoken (n : Nat)
  /-- The head of the second loop of `piperead`, with the bytes of `addr` so far. -/
  | copying (n : Nat) (addr : List UInt8)
deriving DecidableEq

/-- The pipe with its lock and the processes; `stored` and `returned` record all bytes that went in
and all bytes that calls of `piperead` have returned. -/
structure State where
  kernel : Kernel
  pipe : Pipe
  lock : Option Nat
  point : Nat → Point
  stored : List UInt8
  returned : List UInt8

/-- The addresses `&p->nread` and `&p->nwrite`. -/
def nreadChan : Chan := .other 0
def nwriteChan : Chan := .other 1

inductive Event where
  | pipewrite (q n : Nat)
  | piperead (q n : Nat)
  | pipeclose (q : Nat) (writable : Bool)
  /-- The lock holder goes on; `addr` is the user memory that `pipewrite` reads. -/
  | turn (q : Nat) (addr : Nat → UInt8)
  /-- A process that was woken up takes the lock again. -/
  | resume (q : Nat)
  | kill (pid : Nat)
  | dispatch (q : Nat)
  | yield (q : Nat)

def State.setPoint (s : State) (q : Nat) (point : Point) : State :=
  { s with point := Function.update s.point q point }

/-- The call of `q` ends, or its `sleep` gives the lock away. -/
def State.release (s : State) (q : Nat) (point : Point) :
    State := { s.setPoint q point with lock := none }

def State.acquire (s : State) (q : Nat) (point : Point) :
    State := { s.setPoint q point with lock := some q }

def State.wakeup (s : State) (chan : Chan) : State :=
  { s with kernel := wakeup1 s.kernel (some chan) }

/-- `sleep` up to `sched`; `ptable.lock` is held while the pipe's lock is released. -/
def State.sleep (s : State) (q : Nat) (chan : Chan) (woken : Point) : State :=
  { s.release q woken with
    kernel := s.kernel.setProc q { s.kernel.proc q with chan := some chan, state := .sleeping } }

/-- `p->data[p->nwrite++ % PIPESIZE] = byte` -/
def State.store (s : State) (byte : UInt8) : State :=
  { s with
    pipe := { s.pipe with
      data := Function.update s.pipe.data (s.pipe.nwrite.toNat % PIPESIZE) byte
      nwrite := s.pipe.nwrite + 1 }
    stored := s.stored ++ [byte] }

/-- `addr[i] = p->data[p->nread++ % PIPESIZE]`, with `got` in `addr` before. -/
def State.copy (s : State) (q n : Nat) (got : List UInt8) : State :=
  { s with pipe := { s.pipe with nread := s.pipe.nread + 1 } }.setPoint q
    (.copying n (got ++ [s.pipe.data (s.pipe.nread.toNat % PIPESIZE)]))

/-- The end of `piperead`, which returns `got.length`. -/
def State.finish (s : State) (q : Nat) (got : List UInt8) : State :=
  { (s.wakeup nwriteChan).release q .outside with returned := s.returned ++ got }

/-- One turn of the process that holds the lock. -/
def turn (s : State) (q : Nat) (addr : Nat → UInt8) : Option State :=
  match s.point q with
  | .writing n i =>
    if i < n then
      if s.pipe.full then
        if !s.pipe.readopen || (s.kernel.proc q).killed then some (s.release q .outside)
        else some ((s.wakeup nreadChan).setPoint q (.writeSleep n i))
      else some ((s.store (addr i)).setPoint q (.writing n (i + 1)))
    else some ((s.wakeup nreadChan).release q .outside)
  | .writeSleep n i => some (s.sleep q nwriteChan (.writeWoken n i))
  | .reading n =>
    if s.pipe.empty && s.pipe.writeopen then
      if (s.kernel.proc q).killed then some (s.release q .outside)
      else some (s.setPoint q (.readSleep n))
    else some (s.setPoint q (.copying n []))
  | .readSleep n => some (s.sleep q nreadChan (.readWoken n))
  | .copying n got =>
    if got.length < n && !s.pipe.empty then some (s.copy q n got)
    else some (s.finish q got)
  | .outside | .writeWoken _ _ | .readWoken _ => none

/-- What the next turn of `q` returns, if its call ends with it. -/
def result (s : State) (q : Nat) : Option Int :=
  match s.point q with
  | .writing n i =>
    if i < n then
      if s.pipe.full && (!s.pipe.readopen || (s.kernel.proc q).killed) then some (-1) else none
    else some n
  | .reading _ =>
    if s.pipe.empty && s.pipe.writeopen && (s.kernel.proc q).killed then some (-1) else none
  | .copying n got => if got.length < n && !s.pipe.empty then none else some got.length
  | .outside | .writeSleep _ _ | .writeWoken _ _ | .readSleep _ | .readWoken _ => none

/-- `pipeclose`; nothing in it waits for another process once it has the lock. -/
def pipeclose (s : State) (writable : Bool) : State :=
  if writable then { s with pipe := { s.pipe with writeopen := false } }.wakeup nreadChan
  else { s with pipe := { s.pipe with readopen := false } }.wakeup nwriteChan

/-- Process `q` runs and finds the lock free; a pipe with both ends closed has been freed. -/
def State.mayLock (s : State) (q : Nat) : Bool :=
  decide (q < NPROC) && (s.kernel.proc q).state == .running && s.lock.isNone && !s.pipe.freed

def step (s : State) : Event → Option State
  | .pipewrite q n =>
    if s.mayLock q && s.point q == .outside then some (s.acquire q (.writing n 0)) else none
  | .piperead q n =>
    if s.mayLock q && s.point q == .outside then some (s.acquire q (.reading n)) else none
  | .pipeclose q writable =>
    if s.mayLock q && s.point q == .outside then some (pipeclose s writable) else none
  | .turn q addr => if s.lock = some q then turn s q addr else none
  | .resume q =>
    if s.mayLock q then
      let awake : State := { s with
        kernel := s.kernel.setProc q { s.kernel.proc q with chan := none } }
      match s.point q with
      | .writeWoken n i => some (awake.acquire q (.writing n i))
      | .readWoken n => some (awake.acquire q (.reading n))
      | _ => none
    else none
  | .kill pid => some { s with kernel := (kill s.kernel pid).1 }
  | .dispatch q =>
    if (s.kernel.proc q).state = .runnable then
      some { s with kernel := s.kernel.setProc q { s.kernel.proc q with state := .running } }
    else none
  -- interrupts are off while a process holds the lock
  | .yield q =>
    if (s.kernel.proc q).state = .running ∧ s.lock ≠ some q then
      some { s with kernel := s.kernel.setProc q { s.kernel.proc q with state := .runnable } }
    else none

/-- `pipealloc` on a page with any contents; no process is in a call on the pipe yet. -/
def pipealloc (k : Kernel) (data : Nat → UInt8) : State :=
  ⟨k, ⟨data, 0, 0, true, true⟩, none, fun _ => .outside, [], []⟩

end Xv6.Pipes
