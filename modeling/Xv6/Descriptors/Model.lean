import Xv6.Lib.Refs
import Xv6.Process.Calls

/- The open files of all processes: file.c, pipe.c and sysfile.c as far as they create, share and
close descriptors, and what fork, thread_create, thread_exit and exit do with them. -/
namespace Xv6.Descriptors

open Function Process

/-- `type` of a `struct file`, with what it is open on. -/
inductive Kind where
  | none
  | pipe (page : Nat) (writable : Bool)
  | inode (ip : Nat)
deriving DecidableEq

structure File where
  ref : Nat
  type : Kind
deriving DecidableEq

/-- Which ends of a pipe are open. -/
structure Ends where
  readopen : Bool
  writeopen : Bool
deriving DecidableEq

inductive Panic where
  | filedup
  | fileclose
  -- `pipeclose` on a page that has been freed
  | undefined
deriving DecidableEq

/-- `ftable`, the `ofile` of all processes by process and descriptor, and the pipes by page. -/
structure Files where
  file : Nat → File
  ofile : Nat × Nat → Option Nat
  pipe : Nat → Option Ends

/-- All descriptors there are. -/
@[irreducible] def slots : Finset (Nat × Nat) := Finset.range NPROC ×ˢ Finset.range NOFILE

def Files.setFile (s : Files) (f : Nat) (new : File) : Files :=
  { s with file := update s.file f new }

def Files.setSlot (s : Files) (slot : Nat × Nat) (new : Option Nat) : Files :=
  { s with ofile := update s.ofile slot new }

@[simp] theorem setFile_self (s : Files) (f : Nat) (new : File) : (s.setFile f new).file f = new :=
  update_self _ _ _

theorem setFile_of_ne {s : Files} {f g : Nat} {new : File} (other : g ≠ f) :
    (s.setFile f new).file g = s.file g :=
  update_of_ne other _ _

def filealloc (s : Files) : Option (Files × Nat) :=
  (Scan.first (fun f => (s.file f).ref == 0) NFILE 0).map fun f =>
    (s.setFile f { s.file f with ref := 1 }, f)

def filedup (s : Files) (f : Nat) : Except Panic Files :=
  if (s.file f).ref < 1 then .error .filedup
  else .ok (s.setFile f { s.file f with ref := (s.file f).ref + 1 })

def pipeclose (s : Files) (page : Nat) (writable : Bool) : Except Panic Files :=
  match s.pipe page with
  | none => .error .undefined
  | some ends =>
    let ends := if writable then { ends with writeopen := false }
      else { ends with readopen := false }
    let left := if ends.readopen = false ∧ ends.writeopen = false then none else some ends
    .ok { s with pipe := update s.pipe page left }

/-- `fileclose`; what `iput` does is not seen here. -/
def fileclose (s : Files) (f : Nat) : Except Panic Files :=
  if (s.file f).ref < 1 then .error .fileclose
  else if (s.file f).ref - 1 > 0 then .ok (s.setFile f { s.file f with ref := (s.file f).ref - 1 })
  else
    let closed := s.setFile f ⟨0, .none⟩
    match (s.file f).type with
    | .pipe page writable => pipeclose closed page writable
    | .inode _ | .none => .ok closed

def fdalloc (s : Files) (p f : Nat) : Option (Files × Nat) :=
  (Scan.first (fun fd => (s.ofile (p, fd)).isNone) NOFILE 0).map fun fd =>
    (s.setSlot (p, fd) (some f), fd)

/-- `argfd`. -/
def argfd (s : Files) (p fd : Nat) : Option Nat := if fd < NOFILE then s.ofile (p, fd) else none

def sys_dup (s : Files) (p fd : Nat) : Except Panic (Files × Option Nat) :=
  match argfd s p fd with
  | none => .ok (s, none)
  | some f =>
    match fdalloc s p f with
    | none => .ok (s, none)
    | some (s, new) => do
      let s ← filedup s f
      .ok (s, some new)

def sys_close (s : Files) (p fd : Nat) : Except Panic (Files × Option Nat) :=
  match argfd s p fd with
  | none => .ok (s, none)
  | some f => do
    let s ← fileclose (s.setSlot (p, fd) none) f
    .ok (s, some 0)

/-- `sys_open`, with the inode that `create` or `namei` returned. -/
def sys_open (s : Files) (p : Nat) (ip : Option Nat) : Except Panic (Files × Option Nat) :=
  match ip with
  | none => .ok (s, none)
  | some ip =>
    match filealloc s with
    | none => .ok (s, none)
    | some (s, f) =>
      match fdalloc s p f with
      | none => do
        let s ← fileclose s f
        .ok (s, none)
      | some (s, fd) => .ok (s.setFile f { s.file f with type := .inode ip }, some fd)

/-- `pipealloc`, with the page that `kalloc` returned. -/
def pipealloc (s : Files) (page : Option Nat) : Except Panic (Files × Option (Nat × Nat)) :=
  match filealloc s with
  | none => .ok (s, none)
  | some (s, f0) =>
    match filealloc s with
    | none => do
      let s ← fileclose s f0
      .ok (s, none)
    | some (s, f1) =>
      match page with
      | none => do
        let s ← fileclose s f0
        let s ← fileclose s f1
        .ok (s, none)
      | some page =>
        let s := { s with pipe := update s.pipe page (some ⟨true, true⟩) }
        let s := s.setFile f0 { s.file f0 with type := .pipe page false }
        .ok (s.setFile f1 { s.file f1 with type := .pipe page true }, some (f0, f1))

def sys_pipe (s : Files) (p : Nat) (page : Option Nat) :
    Except Panic (Files × Option (Nat × Nat)) := do
  match ← pipealloc s page with
  | (s, none) => .ok (s, none)
  | (s, some (rf, wf)) =>
    match fdalloc s p rf with
    | none => do
      let s ← fileclose s rf
      let s ← fileclose s wf
      .ok (s, none)
    | some (s, fd0) =>
      match fdalloc s p wf with
      | none => do
        let s ← fileclose (s.setSlot (p, fd0) none) rf
        let s ← fileclose s wf
        .ok (s, none)
      | some (s, fd1) => .ok (s, some (fd0, fd1))

/-- The loop of `fork` and `thread_create` over the open files of `p`. -/
def dupFiles (s : Files) (p np : Nat) : Except Panic Files :=
  (List.range NOFILE).foldlM (fun s fd =>
    match s.ofile (p, fd) with
    | none => .ok s
    | some f => do
      let s ← filedup s f
      .ok (s.setSlot (np, fd) (some f))) s

/-- The loop of `exit` and `thread_exit` over the open files of `p`. -/
def closeFiles (s : Files) (p : Nat) : Except Panic Files :=
  (List.range NOFILE).foldlM (fun s fd =>
    match s.ofile (p, fd) with
    | none => .ok s
    | some f => do
      let s ← fileclose s f
      .ok (s.setSlot (p, fd) none)) s

/-- `exit` closes the files of the workers, then those of the master. -/
def closeGroup (k : Kernel) (s : Files) (p : Nat) : Except Panic Files := do
  let s ← (k.workers (k.masterOf p)).foldlM closeFiles s
  closeFiles s (k.masterOf p)

/-- The thread that gets the open files in a call of `thread_create`: the stack is there. -/
def stackedThread (k : Kernel) (p : Nat) : Option Nat :=
  match Process.allocthread k (k.masterOf p) with
  | .ok (u, some thrd) =>
    match Process.allocusrstack u (k.masterOf p) thrd with
    | .ok (_, true) => some thrd
    | _ => none
  | _ => none

/-- What a call does to the open files. -/
def effect (k : Kernel) (s : Files) : Process.Calls.Event → Except Panic Files
  | .fork p =>
    match Process.fork k p with
    | .ok (_, some np) => dupFiles s p np
    | _ => .ok s
  | .threadCreate p _ =>
    match stackedThread k p with
    | some thrd => dupFiles s (k.masterOf p) thrd
    | none => .ok s
  | .threadExit p _ => if (k.proc p).master = none then closeGroup k s p else closeFiles s p
  | .exit p => closeGroup k s p
  | .threadJoin .. | .joinAgain _ | .wait _ | .exec .. | .sbrk .. | .kill _ | .dispatch _ | .yield _
  | .sleep .. | .wakeup _ => .ok s

/-- The processes with their open files, and how the kernel stopped, if it did. -/
structure System where
  m : Process.Calls.Machine
  files : Files
  panic : Option Panic

inductive Event where
  | call (event : Process.Calls.Event)
  | dup (p fd : Nat)
  | close (p fd : Nat)
  | open (p : Nat) (ip : Option Nat)
  | pipe (p : Nat) (page : Option Nat)

def System.after (s : System) (m : Process.Calls.Machine) : Except Panic Files → System
  | .ok files => { s with m := m, files := files }
  | .error panic => { s with m := m, panic := some panic }

/-- Process `p` is on a CPU and in no other call. -/
def System.mayCall (s : System) (p : Nat) : Prop :=
  p < NPROC ∧ s.m.cpu p = true ∧ s.m.joining p = none ∧ s.panic = none
deriving Decidable

def step (s : System) : Event → Option System
  | .call event =>
    if s.panic = none then
      (Process.Calls.step s.m event).map fun m => s.after m (effect s.m.k s.files event)
    else none
  | .dup p fd => if s.mayCall p then some (s.after s.m ((sys_dup s.files p fd).map Prod.fst))
      else none
  | .close p fd =>
    if s.mayCall p then some (s.after s.m ((sys_close s.files p fd).map Prod.fst)) else none
  | .open p ip =>
    if s.mayCall p then some (s.after s.m ((sys_open s.files p ip).map Prod.fst)) else none
  -- `kalloc` returns no page that is in use
  | .pipe p page =>
    if s.mayCall p ∧ ∀ a ∈ page, s.files.pipe a = none then
      some (s.after s.m ((sys_pipe s.files p page).map Prod.fst))
    else none

/-- No file is open. -/
def Files.start : Files := ⟨fun _ => ⟨0, .none⟩, fun _ => none, fun _ => none⟩

end Xv6.Descriptors
