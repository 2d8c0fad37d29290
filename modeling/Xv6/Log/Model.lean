import Xv6.Lib.Bytes
import Xv6.Param

/- log.c over the buffer cache and the disk. Every function is the source's, one
disk block write at a time; a spinlock section is one step. -/
namespace Xv6.Log

open Function Bytes

/-- A valid `struct buf` of the cache. The cache below is keyed by block number. -/
structure Buf where
  data : Block
  dirty : Bool

/-- `struct logheader`; the entries from `n` on are stale. -/
structure LogHeader where
  n : Nat
  block : Nat → Nat

/-- `log.start` and `log.size`, which `initlog` reads from the super block. The header takes
one of the blocks. -/
structure Layout where
  start : Nat
  size : Nat
  pos : 0 < size

/-- A block number (a `uint`) outside the log area. -/
def Layout.home (g : Layout) (b : Nat) : Prop :=
  (b < g.start ∨ g.start + g.size ≤ b) ∧ b < 2 ^ 32
deriving Decidable

/-- The log of the image that mkfs makes: `logstart` 2, `nlog` 30, then the inode blocks. -/
def fsLog : Layout := ⟨2, LOGSIZE, by decide⟩

/-- Where a caller stands in `commit` or `recover_from_log`. -/
inductive Pc where
  | readHead
  | entry
  | writeLog (tail : Nat)
  | writeHead
  | install (tail : Nat)
  | clear
  | erase
  | finish
deriving DecidableEq

/-- Who runs them: the last `end_op`, `sys_sync`, or `initlog` at boot. -/
inductive Agent where
  | endOp
  | sync
  | boot
deriving DecidableEq

/-- The disk, the buffer cache, `struct log`, and where each process is. An operation is in
`active` from `begin_op` to `end_op`, and in `pending` while it holds the buffer it has changed
and has passed the tests of `log_write` without having the lock yet. No function reads `wrote`
or `settled`: they record what an operation has logged so far, and the content a block had
when the last operation that logged it ended. -/
structure Sys where
  disk : Nat → Block
  cache : Nat → Option Buf
  outstanding : Nat
  committing : Bool
  lh : LogHeader
  pc : Agent → Option Pc
  active : List Nat
  pending : Nat → Option (Nat × Block)
  wrote : Nat → List Nat
  settled : Nat → Block

namespace Sys

/-- The content `bread` returns. -/
def view (s : Sys) (b : Nat) : Block :=
  match s.cache b with
  | some buf => buf.data
  | none => s.disk b

/-- `bread` leaves the block in the cache, read from the disk if it was not there. -/
def bread (s : Sys) (b : Nat) : Sys :=
  match s.cache b with
  | some _ => s
  | none => { s with cache := update s.cache b (some ⟨s.disk b, false⟩) }

/-- `bwrite` of a buffer that now holds `data`: `iderw` clears `B_DIRTY`. -/
def bwrite (s : Sys) (b : Nat) (data : Block) : Sys :=
  { s with
    cache := update s.cache b (some ⟨data, false⟩)
    disk := update s.disk b data }

def setPc (s : Sys) (agent : Agent) (pc : Option Pc) : Sys :=
  { s with pc := update s.pc agent pc }

end Sys

/-- The header block after `hb->n` and `hb->block[0..n)` are stored in it. -/
def putHeader (hb : Block) (lh : LogHeader) : Block :=
  (List.range lh.n).foldl (fun block i => setWord block (i + 1) (lh.block i)) (setWord hb 0 lh.n)

def getHeader (hb : Block) (old : LogHeader) : LogHeader :=
  { n := getWord hb 0
    block := fun i => if i < getWord hb 0 then getWord hb (i + 1) else old.block i }

def readHead (g : Layout) (s : Sys) : Sys :=
  let s := s.bread g.start
  { s with lh := getHeader (s.view g.start) s.lh }

def writeHead (g : Layout) (s : Sys) : Sys :=
  let s := s.bread g.start
  s.bwrite g.start (putHeader (s.view g.start) s.lh)

/-- One iteration of the loop of `write_log`. -/
def writeLogBlock (g : Layout) (s : Sys) (tail : Nat) : Sys :=
  let s := (s.bread (g.start + tail + 1)).bread (s.lh.block tail)
  s.bwrite (g.start + tail + 1) (s.view (s.lh.block tail))

/-- One iteration of the loop of `install_trans`. -/
def installBlock (g : Layout) (s : Sys) (tail : Nat) : Sys :=
  let s := (s.bread (g.start + tail + 1)).bread (s.lh.block tail)
  s.bwrite (s.lh.block tail) (s.view (g.start + tail + 1))

/-- The index at which the search loop of `log_write` stops. -/
def slotOf (lh : LogHeader) (b : Nat) : Nat :=
  ((List.range lh.n).find? (fun i => lh.block i == b)).getD lh.n

def recordBlock (lh : LogHeader) (b : Nat) : LogHeader :=
  { n := if slotOf lh b = lh.n then lh.n + 1 else lh.n
    block := update lh.block (slotOf lh b) b }

/-- `none`: the caller sleeps on the log. Operations start once `initlog` is done. -/
def beginOp (s : Sys) (p : Nat) : Option Sys :=
  if s.pc .boot ≠ none ∨ p ∈ s.active then none
  else if s.committing then none
  else if s.lh.n + (s.outstanding + 1) * MAXOPBLOCKS > LOGSIZE then none
  else some { s with
    outstanding := s.outstanding + 1
    active := p :: s.active }

/-- `log_write` up to its lock, by an operation that has put `data` into its locked buffer of
block `b`. The two tests read `log` without holding `log.lock`; `none` is their panic. The file
system logs no block of the log area, and a buffer has one holder. -/
def logCheck (g : Layout) (s : Sys) (p b : Nat) (data : Block) : Option Sys :=
  if s.lh.n ≥ LOGSIZE ∨ s.lh.n + 1 ≥ g.size then none
  else if s.outstanding < 1 then none
  else if p ∈ s.active ∧ s.pending p = none ∧ g.home b ∧
      s.active.all (fun q => (s.pending q).all (fun held => held.1 != b)) then
    some { s with pending := update s.pending p (some (b, data)) }
  else none

/-- The locked part of `log_write`. -/
def logAppend (s : Sys) (p : Nat) : Option Sys :=
  match s.pending p with
  | none => none
  | some (b, data) => some { s with
      lh := recordBlock s.lh b
      cache := update s.cache b (some ⟨data, true⟩)
      pending := update s.pending p none
      wrote := update s.wrote p (b :: s.wrote p) }

/-- `end_op` up to the call of `commit`; `none` for a caller outside an operation and for
the panic `log.committing`. -/
def endOp (g : Layout) (s : Sys) (p : Nat) : Option Sys :=
  if p ∉ s.active ∨ s.pending p ≠ none then none
  else if s.committing then none
  else
    let s := { s with
      outstanding := s.outstanding - 1
      active := s.active.erase p
      wrote := update s.wrote p []
      settled := fun b => if b ∈ s.wrote p then s.view b else s.settled b }
    if s.outstanding = 0 ∧ s.lh.n > g.size / 2 then
      some (Sys.setPc { s with committing := true } .endOp (some .entry))
    else some s

/-- `sys_sync` calls `commit` at once. -/
def sysSync (s : Sys) : Option Sys :=
  if s.pc .boot ≠ none ∨ s.pc .sync ≠ none then none
  else some (s.setPc .sync (some .entry))

/-- The next step of `commit` or of `recover_from_log`. -/
def advance (g : Layout) (s : Sys) (agent : Agent) : Pc → Sys
  | .readHead => (readHead g s).setPc agent (some (.install 0))
  | .entry => s.setPc agent (some (if s.lh.n > 0 then .writeLog 0 else .finish))
  | .writeLog tail =>
    if tail < s.lh.n then (writeLogBlock g s tail).setPc agent (some (.writeLog (tail + 1)))
    else s.setPc agent (some .writeHead)
  | .writeHead => (writeHead g s).setPc agent (some (.install 0))
  | .install tail =>
    if tail < s.lh.n then (installBlock g s tail).setPc agent (some (.install (tail + 1)))
    else s.setPc agent (some .clear)
  | .clear => Sys.setPc { s with lh := { s.lh with n := 0 } } agent (some .erase)
  | .erase => (writeHead g s).setPc agent (some .finish)
  | .finish =>
    Sys.setPc { s with committing := if agent = .endOp then false else s.committing } agent none

/-- The machine boots into `recover_from_log`. -/
def powerOn (disk : Nat → Block) : Sys :=
  { disk := disk
    cache := fun _ => none
    outstanding := 0
    committing := false
    lh := ⟨0, fun _ => 0⟩
    pc := fun agent => if agent = .boot then some .readHead else none
    active := []
    pending := fun _ => none
    wrote := fun _ => []
    settled := disk }

/-- Only the disk survives. -/
def crash (s : Sys) : Sys := powerOn s.disk

/-- `bget` takes a buffer that is not dirty for another block. -/
def recycle (s : Sys) (b : Nat) : Option Sys :=
  match s.cache b with
  | some ⟨_, false⟩ => some { s with cache := update s.cache b none }
  | _ => none

inductive Event where
  | beginOp (p : Nat)
  | logCheck (p b : Nat) (data : Block)
  | logAppend (p : Nat)
  | endOp (p : Nat)
  | sysSync
  | step (agent : Agent)
  | crash
  | bread (b : Nat)
  | recycle (b : Nat)

def step (g : Layout) (s : Sys) : Event → Option Sys
  | .beginOp p => beginOp s p
  | .logCheck p b data => logCheck g s p b data
  | .logAppend p => logAppend s p
  | .endOp p => endOp g s p
  | .sysSync => sysSync s
  | .step agent => (s.pc agent).map (advance g s agent)
  | .crash => some (crash s)
  | .bread b => some (s.bread b)
  | .recycle b => recycle s b

end Xv6.Log
