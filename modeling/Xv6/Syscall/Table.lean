import Xv6.Console
import Xv6.Descriptors.Model
import Xv6.Fs.File
import Xv6.Pipes.Model
import Xv6.Process.Bounds
import Xv6.Syscall.Args

/- The table of syscall.c with the handlers of sysproc.c and sysfile.c: where a call stores through
a pointer that its caller gave. Handlers that only read through such pointers store nothing. -/
namespace Xv6.Syscall

open Outcome Process Process.Calls Process.Bounds Vm Option List

inductive Entry where
  | sys_fork | sys_exit | sys_wait | sys_pipe | sys_read | sys_kill | sys_exec |
      sys_fstat | sys_chdir
  | sys_dup | sys_getpid | sys_sbrk | sys_sleep | sys_uptime | sys_open | sys_write | sys_mknod
  | sys_unlink | sys_link | sys_mkdir | sys_close | sys_yield | sys_getlev | sys_set_cpu_share
  | sys_thread_create | sys_thread_join | sys_thread_exit | sys_sync | sys_get_log_num | sys_pread
  | sys_pwrite

/-- What a call finds besides the processes: the open files of its caller, the disk, the pipe or the
console that it reads with the bytes that it has stored so far, the files of the system, the page
that `kalloc` has for a pipe, and the processes when `thread_join` looks at the thread again. -/
structure World where
  sb : Fs.Superblock
  fs : Fs.State
  ofile : Nat → Option Fs.File
  pipe : Pipes.State
  console : Console.State
  got : List UInt8
  files : Descriptors.Files
  page : Option Nat
  later : Kernel

/-- The bytes that `piperead` has stored after one more turn of its second loop. -/
def World.piperead (w : World) (curproc n : Nat) : Option (List UInt8) :=
  (Pipes.turn (w.pipe.setPoint curproc (.copying n w.got)) curproc fun _ => 0).bind fun s =>
    match s.point curproc with
    | .copying _ got => some got
    | _ => none

/-- The bytes that `consoleread` has stored after one more turn of its loop. -/
def World.consoleread (w : World) (curproc n : Nat) : Option (List UInt8) :=
  if w.got.length < n then
    (Console.turn w.console curproc (n - w.got.length) w.got).bind fun s =>
      match s.point curproc with
      | .reading _ got => some got
      | .returned got => got
  else none

abbrev CONSOLE : Nat := 1

def World.outside (w : World) (curproc : Nat) : Fs.Outside where
  devsw := ⟨fun major => if major = CONSOLE then some (w.consoleread curproc) else none,
      fun _ => none⟩
  piperead := w.piperead curproc
  pipewrite := fun _ _ => none

/-- Bytes that the kernel writes. -/
structure Store where
  addr : Nat
  length : Nat
deriving DecidableEq

/-- Each byte lies in `[0, sz)` and below KERNBASE. -/
def Store.Inside (sz : Nat) (s : Store) : Prop := ∀ i, i < s.length →
  (s.addr + i) % 2 ^ 32 < sz ∧ (s.addr + i) % 2 ^ 32 < KERNBASE

/-- A call returns -1 at the first argument that is not accepted. -/
def accepted {A : Type} (argument : Except Stop (Option A)) (next : A → Except Stop (List Store)) :
    Except Stop (List Store) := do
  match ← argument with
  | none => .ok []
  | some a => next a

/-- A descriptor below zero is a word above NOFILE. -/
def argfd (w : World) (k : Kernel) (curproc esp n : Nat) : Except Stop (Option Fs.File) := do
  match ← argint k curproc esp n with
  | none => .ok none
  | some fd => .ok (if fd ≥ NOFILE then none else w.ofile fd)

/-- What `fileread` or `filepread` puts at `addr`. -/
def transferred (addr : Nat) :
    Except Fs.Panic (Fs.State × Fs.File × Option (List UInt8)) → List Store
  | .ok (_, _, some bytes) => [⟨addr, bytes.length⟩]
  | _ => []

def sys_read (w : World) (k : Kernel) (curproc esp : Nat) : Except Stop (List Store) :=
  accepted (argfd w k curproc esp 0) fun f =>
  accepted (argint k curproc esp 2) fun n =>
  accepted (argptr k curproc esp 1 ((n : Int).bmod (2 ^ 32))) fun p =>
  .ok (transferred p (Fs.fileread w.sb (w.outside curproc) w.fs f n))

def sys_pread (w : World) (k : Kernel) (curproc esp : Nat) : Except Stop (List Store) :=
  accepted (argfd w k curproc esp 0) fun f =>
  accepted (argint k curproc esp 2) fun n =>
  accepted (argptr k curproc esp 1 ((n : Int).bmod (2 ^ 32))) fun p =>
  accepted (argint k curproc esp 3) fun off =>
  .ok (transferred p (Fs.filepread w.sb (w.outside curproc) w.fs f n off))

/-- `filestat`: `stati` writes `type`, `dev`, `ino`, `nlink` and `size`. -/
def sys_fstat (w : World) (k : Kernel) (curproc esp : Nat) : Except Stop (List Store) :=
  accepted (argfd w k curproc esp 0) fun f =>
  accepted (argptr k curproc esp 1 20) fun st =>
  .ok (if f.type = .inode then [⟨st, 2⟩, ⟨st + 4, 4⟩, ⟨st + 8, 4⟩, ⟨st + 12, 2⟩, ⟨st + 16, 4⟩]
      else [])

def sys_pipe (w : World) (k : Kernel) (curproc esp : Nat) : Except Stop (List Store) :=
  accepted (argptr k curproc esp 0 8) fun fd =>
  match Descriptors.sys_pipe w.files curproc w.page with
  | .ok (_, some _) => .ok [⟨fd, 4⟩, ⟨fd + 4, 4⟩]
  | _ => .ok []

/-- The pointer is fetched as an integer. -/
def sys_thread_create (k : Kernel) (curproc esp : Nat) : Except Stop (List Store) :=
  accepted (argint k curproc esp 0) fun thread =>
  accepted (argint k curproc esp 1) fun _ =>
  accepted (argint k curproc esp 2) fun arg => do
  let (_, made) ← Process.thread_create k curproc arg
  .ok (if made.isSome then [⟨thread, 4⟩] else [])

/-- `*retval` is written when the loop of `thread_join` has found the thread dead and its stack is
freed. -/
def sys_thread_join (w : World) (k : Kernel) (curproc esp : Nat) : Except Stop (List Store) :=
  accepted (argint k curproc esp 0) fun thread =>
  accepted (argint k curproc esp 1) fun retval =>
  match k.slotOf thread with
  | none => .error .undefined
  | some join =>
    if (k.proc join).state = .unused then .ok []
    else do
      match ← joinLoop w.later curproc join with
      | (_, .returned (some _)) => .ok (if retval ≠ 0 then [⟨retval, 4⟩] else [])
      | _ => .ok []

/-- What a call by `curproc` stores. -/
def stores (w : World) (k : Kernel) (curproc esp : Nat) : Entry → Except Stop (List Store)
  | .sys_read => sys_read w k curproc esp
  | .sys_pread => sys_pread w k curproc esp
  | .sys_fstat => sys_fstat w k curproc esp
  | .sys_pipe => sys_pipe w k curproc esp
  | .sys_thread_create => sys_thread_create k curproc esp
  | .sys_thread_join => sys_thread_join w k curproc esp
  | _ => .ok []

variable {w : World} {k : Kernel} {p esp n sz : Nat}

/-- Whatever the call returns, it has stored inside. -/
def Keeps (sz : Nat) (call : Except Stop (List Store)) : Prop :=
  Ends (fun _ => True) (fun list => ∀ s ∈ list, s.Inside sz) call

section

variable (bounded : Bounded k)
include bounded

end

/-- The first process on a CPU. Its stack pointer is 0, so its argument words are the bytes from 4
on. -/
def caller (code : Nat → UInt8) : Option Machine :=
  (Process.userinit (Kernel.boot Process.smallMem) code).toOption.bind
    fun k => Run.exec step (Machine.start k) [.dispatch 0]

end Xv6.Syscall
