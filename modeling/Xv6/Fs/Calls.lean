import Xv6.Fs.Names

/- The system calls on files with the tables they change: `sys_open` with the table of open files,
`sys_chdir` with the current directories, and exec.c reading its inode. -/
namespace Xv6.Fs.Names

open Descriptors Process Vm

/-- A part of the call in the virtual memory. -/
def inMemory {A : Type} : Except Stop A → Except Halt A
  | .error stop => .error (.memory stop)
  | .ok a => .ok a

/-- A part of the call in the table of open files. -/
def inFiles {A : Type} : Except Descriptors.Panic A → Except Halt A
  | .error why => .error (.files why)
  | .ok a => .ok a

variable (sb : Superblock) (devsw : Devsw)

/-- `fileclose`, with what it does to the inode. -/
def fileclose (t : Task) (files : Files) (f : Nat) : Except Halt (Task × Files) := do
  let closed ← inFiles (Descriptors.fileclose files f)
  match (files.file f).type with
  | .inode ip =>
    if (files.file f).ref - 1 > 0 then .ok (t, closed)
    else do
      let t ← t.begin_op
      let t ← t.iput sb ip
      .ok (t.end_op sb, closed)
  | _ => .ok (t, closed)

/-- The descriptor, if `sys_open` of process `p` returns one. -/
def sys_open (t : Task) (files : Files) (p cwd : Nat) (path : Option (List UInt8)) (omode : Nat) :
    Except Halt (Task × Files × Option Nat) :=
  match path with
  | none => .ok (t, files, none)
  | some path => do
    let t ← t.begin_op
    let (t, found) ← openInode sb devsw t cwd path omode
    match found with
    | none => .ok (t.end_op sb, files, none)
    | some ip =>
      match filealloc files with
      | none => do
        let t ← t.iunlockput sb ip
        .ok (t.end_op sb, files, none)
      | some (files, f) =>
        match fdalloc files p f with
        | none => do
          let (t, files) ← fileclose sb t files f
          let t ← t.iunlockput sb ip
          .ok (t.end_op sb, files, none)
        | some (files, fd) => do
          let t ← t.iunlock ip
          .ok (t.end_op sb, files.setFile f { files.file f with type := .inode ip }, some fd)

/-- The bytes that `readi` puts into the memory; `exec` and `loaduvm` compare their number. -/
def readBytes (t : Task) (ip off n : Nat) : Except Halt (Task × List UInt8) := do
  let (t, bytes) ← t.run (readi sb devsw t.fs ip off n)
  .ok (t, bytes.getD [])

/-- The loop of `loaduvm` over the pages of a segment. -/
def loaduvmLoop (dir : Pgdir) (v ip offset sz : Nat) :
    Nat → Task → Mem → Nat → Except Halt (Task × Mem × Bool)
  | 0, t, m, _ => .ok (t, m, true)
  | fuel + 1, t, m, i =>
    if i * PGSIZE < sz then
      match dir.pgtab ((v + i) / NPTENTRIES), dir.entry (v + i) with
      | none, _ => .error (.memory .loaduvmAddress)
      | some _, none => .error (.memory .undefined)
      | some _, some pte => do
        let n := min (sz - i * PGSIZE) PGSIZE
        let (t, bytes) ← readBytes sb devsw t ip ((offset + i * PGSIZE) % 2 ^ 32) n
        let page := fun j => if j < bytes.length then bytes.getD j 0 else m.page pte.frame j
        let m := { m with page := Function.update m.page pte.frame page }
        if bytes.length = n then loaduvmLoop dir v ip offset sz fuel t m (i + 1)
        else .ok (t, m, false)
    else .ok (t, m, true)

/-- Whether `loaduvm` returns 0. -/
def loaduvm (t : Task) (m : Mem) (dir : Pgdir) (addr ip offset sz : Nat) :
    Except Halt (Task × Mem × Bool) :=
  if addr % PGSIZE ≠ 0 then .error (.memory .loaduvmAligned)
  else loaduvmLoop sb devsw dir (addr / PGSIZE) ip offset sz (pages sz) t m 0

/-- The loop of `exec` over the program headers; the size of the image, or `none` for `goto bad`. -/
def loadSegments (ip : Nat) :
    Nat → Nat → Task → Mem → Pgdir → Nat → Except Halt (Task × Mem × Pgdir × Option Nat)
  | 0, _, t, m, dir, sz => .ok (t, m, dir, some sz)
  | count + 1, off, t, m, dir, sz => do
    let (t, ph) ← readBytes sb devsw t ip off 32
    let vaddr := Process.headerWord ph 2
    let filesz := Process.headerWord ph 4
    let memsz := Process.headerWord ph 5
    if ph.length ≠ 32 then .ok (t, m, dir, none)
    else if Process.headerWord ph 0 ≠ Process.ELF_PROG_LOAD then
      loadSegments ip count ((off + 32) % 2 ^ 32) t m dir sz
    else if memsz < filesz ∨ (vaddr + memsz) % 2 ^ 32 < vaddr then .ok (t, m, dir, none)
    else do
      let (m, dir, sz) ← inMemory (allocuvm m dir sz ((vaddr + memsz) % 2 ^ 32))
      if sz = 0 ∨ vaddr % PGSIZE ≠ 0 then .ok (t, m, dir, none)
      else do
        let (t, m, loaded) ← loaduvm sb devsw t m dir vaddr ip (Process.headerWord ph 1) filesz
        if loaded then loadSegments ip count ((off + 32) % 2 ^ 32) t m dir sz
        else .ok (t, m, dir, none)

/-- The label `bad` of `exec` while it has its inode. -/
def execBad (t : Task) (k : Kernel) (ip : Nat) : Except Halt (Task × Kernel × Bool) := do
  let t ← t.iunlockput sb ip
  .ok (t.end_op sb, k, false)

/-- `exec` with a new page directory. -/
def execImage (t : Task) (k : Kernel) (p ip : Nat) (m : Mem) (d : Nat) (dir : Pgdir)
    (elf : List UInt8) (argv : List (List UInt8)) : Except Halt (Task × Kernel × Bool) := do
  let (t, m, dir, loaded) ←
    loadSegments sb devsw ip (Process.phnum elf) (Process.headerWord elf 7) t m dir 0
  match loaded with
  | none => do
    let m ← inMemory (freevm m d dir)
    execBad sb t (k.setMem m) ip
  | some sz => do
    let t ← t.iunlockput sb ip
    let t := t.end_op sb
    let (m, dir, loaded) ← inMemory (Process.loadStack m dir sz argv)
    let (k, done) ← inMemory (Process.execCommit k p d m dir loaded)
    .ok (t, k, done)

/-- Whether `exec` of process `p` returns 0. -/
def exec (t : Task) (k : Kernel) (p cwd : Nat) (path : List UInt8) (argv : List (List UInt8)) :
    Except Halt (Task × Kernel × Bool) := do
  let t ← t.begin_op
  let (t, found) ← namei sb devsw t cwd path
  match found with
  | none => .ok (t.end_op sb, k, false)
  | some ip => do
    let t ← t.ilock sb ip
    let (t, elf) ← readBytes sb devsw t ip 0 52
    if elf.length ≠ 52 ∨ Process.headerWord elf 0 ≠ Process.ELF_MAGIC then execBad sb t k ip
    else do
      match ← inMemory (setupkvm k.mem) with
      | (m, none) => execBad sb t (k.setMem m) ip
      | (m, some (d, dir)) => execImage sb devsw t k p ip m d dir elf argv

/-- The files with what points to them: the open files and the current directories by process. -/
structure Machine where
  fs : State
  files : Files
  cwd : Nat → Option Nat
  kernel : Kernel

/-- A path is `none` if `argstr` fails on it. -/
inductive Call where
  | sys_link (old new : Option (List UInt8))
  | sys_unlink (path : Option (List UInt8))
  | sys_open (path : Option (List UInt8)) (omode : Nat)
  | sys_mkdir (path : Option (List UInt8))
  | sys_mknod (path : Option (List UInt8)) (major minor : Nat)
  | sys_chdir (path : Option (List UInt8))
  | exec (path : List UInt8) (argv : List (List UInt8))

/-- The start of a call. -/
def Machine.task (m : Machine) : Task := ⟨m.fs, [], 0, 0⟩

/-- The call of process `p`, whose current directory is `cwd`, with the end of its task. -/
def invokeAt (m : Machine) (p cwd : Nat) : Call → Except Halt (Task × Machine)
  | .sys_link old new => do
    let (t, _) ← sys_link sb devsw m.task cwd old new
    .ok (t, { m with fs := t.fs })
  | .sys_unlink path => do
    let (t, _) ← sys_unlink sb devsw m.task cwd path
    .ok (t, { m with fs := t.fs })
  | .sys_open path omode => do
    let (t, files, _) ← sys_open sb devsw m.task m.files p cwd path omode
    .ok (t, { m with fs := t.fs, files := files })
  | .sys_mkdir path => do
    let (t, _) ← sys_mkdir sb devsw m.task cwd path
    .ok (t, { m with fs := t.fs })
  | .sys_mknod path major minor => do
    let (t, _) ← sys_mknod sb devsw m.task cwd path major minor
    .ok (t, { m with fs := t.fs })
  | .sys_chdir path => do
    let (t, new) ← sys_chdir sb devsw m.task cwd path
    match new with
    | none => .ok (t, { m with fs := t.fs })
    | some ip => .ok (t, { m with fs := t.fs, cwd := Function.update m.cwd p (some ip) })
  | .exec path argv => do
    let (t, k, _) ← exec sb devsw m.task m.kernel p cwd path argv
    .ok (t, { m with fs := t.fs, kernel := k })

/-- A process that makes a call has a current directory. -/
def invoke (m : Machine) (p : Nat) (call : Call) : Except Halt (Task × Machine) :=
  match m.cwd p with
  | none => .error (.memory .undefined)
  | some cwd => invokeAt sb devsw m p cwd call

end Xv6.Fs.Names
