import Xv6.Fs.Model
import Xv6.Descriptors.Model

/- Path names of fs.c and the system calls of sysfile.c that make, remove and open names, from
`begin_op` to `end_op`. The calls run one after the other; a call that would wait for another
process does not return here. -/
namespace Xv6.Fs.Names

abbrev ROOTINO : Nat := 1
abbrev O_CREATE : Nat := 0x200

/-- A string constant, with zeros behind its end. -/
def literal (bytes : List UInt8) (i : Nat) : UInt8 := bytes.getD i 0

def dot : Nat → UInt8 := literal [46]
def dotdot : Nat → UInt8 := literal [46, 46]
def slash : UInt8 := 47

/-- The rest of the path and the element in front of it, of which at most `DIRSIZ` bytes count. -/
def skipelem (path : List UInt8) : Option (List UInt8 × (Nat → UInt8)) :=
  let path := path.dropWhile (· == slash)
  if path = [] then none
  else
    let elem := path.takeWhile (· != slash)
    let path := (path.dropWhile (· != slash)).dropWhile (· == slash)
    some (path, literal (elem.take DIRSIZ))

/-- Why a call does not return. -/
inductive Halt where
  | panic (why : Panic)
  | files (why : Descriptors.Panic)
  | memory (stop : Stop)
  /-- It waits for a lock that it holds itself, or for room in the log. -/
  | asleep
deriving DecidableEq

/-- A system call on its way: the files, the inodes that it has locked, and how often it has called
`begin_op` and `end_op`. -/
structure Task where
  fs : State
  locks : List Nat
  begun : Nat
  ended : Nat

namespace Task

/-- A part of the call that takes no lock. -/
def run {A : Type} (t : Task) : Except Panic (State × A) → Except Halt (Task × A)
  | .error why => .error (.panic why)
  | .ok (s, a) => .ok ({ t with fs := s }, a)

def write (t : Task) : Except Panic State → Except Halt Task
  | .error why => .error (.panic why)
  | .ok s => .ok { t with fs := s }

end Task

variable (sb : Superblock) (devsw : Devsw)

namespace Task

/-- `log.outstanding`. -/
def outstanding (t : Task) : Nat := t.begun - t.ended

def begin_op (t : Task) : Except Halt Task :=
  if t.fs.lh.length + (t.outstanding + 1) * MAXOPBLOCKS > LOGSIZE then .error .asleep
  else .ok { t with begun := t.begun + 1 }

def end_op (t : Task) : Task :=
  { t with
    fs := if t.outstanding - 1 = 0 then endOp sb t.fs else t.fs
    ended := t.ended + 1 }

def ilock (t : Task) (k : Nat) : Except Halt Task :=
  if (t.fs.inode k).ref < 1 then .error (.panic .ilock)
  else if k ∈ t.locks then .error .asleep
  else do
    let t ← t.write (Fs.ilock sb t.fs k)
    .ok { t with locks := k :: t.locks }

def iunlock (t : Task) (k : Nat) : Except Halt Task :=
  if k ∉ t.locks ∨ (t.fs.inode k).ref < 1 then .error (.panic .iunlock)
  else .ok { t with locks := t.locks.erase k }

/-- `iput` takes the lock and gives it back. -/
def iput (t : Task) (k : Nat) : Except Halt Task :=
  if k ∈ t.locks then .error .asleep else t.write (Fs.iput sb t.fs k)

def iunlockput (t : Task) (k : Nat) : Except Halt Task := do
  let t ← t.iunlock k
  t.iput sb k

/-- `dirlink` on the locked directory in slot `dp`. -/
def dirlink (t : Task) (dp : Nat) (name : Nat → UInt8) (inum : Nat) :
    Except Halt (Task × Bool) := do
  let (t, found) ← t.run (dirlookup sb devsw t.fs dp name)
  match found with
  | some (ip, _) => do
    let t ← t.iput sb ip
    .ok (t, false)
  | none => do
    let (t, off) ← t.run (dirlinkLoop sb devsw dp (t.fs.inode dp).size t.fs 0)
    let (t, r) ← t.run (writei sb devsw t.fs dp (dirent name inum) off DIRENT)
    if r = some DIRENT then .ok (t, true) else .error (.panic .dirlink)

end Task

/-- The end of `namex` after its loop. -/
def namexEnd (parent : Bool) (t : Task) (ip : Nat) :
    Except Halt (Task × Option (Nat × (Nat → UInt8))) :=
  if parent then do
    let t ← t.iput sb ip
    .ok (t, none)
  else .ok (t, some (ip, literal []))

/-- The loop of `namex` at the inode in slot `ip`. An element of the path has at least one byte, so
the length of the path is enough `fuel`. -/
def namexLoop (parent : Bool) :
    Nat → Task → Nat → List UInt8 → Except Halt (Task × Option (Nat × (Nat → UInt8)))
  | 0, t, ip, _ => namexEnd sb parent t ip
  | fuel + 1, t, ip, path =>
    match skipelem path with
    | none => namexEnd sb parent t ip
    | some (path, name) => do
      let t ← t.ilock sb ip
      if (t.fs.inode ip).type ≠ T_DIR then do
        let t ← t.iunlockput sb ip
        .ok (t, none)
      else if parent ∧ path = [] then do
        let t ← t.iunlock ip
        .ok (t, some (ip, name))
      else do
        let (t, next) ← t.run (dirlookup sb devsw t.fs ip name)
        let t ← t.iunlockput sb ip
        match next with
        | none => .ok (t, none)
        | some (next, _) => namexLoop parent fuel t next path

/-- `cwd` is the slot of `myproc()->cwd`. The result has the slot of the inode and `name`. -/
def namex (t : Task) (cwd : Nat) (path : List UInt8) (parent : Bool) :
    Except Halt (Task × Option (Nat × (Nat → UInt8))) := do
  let (t, ip) ← t.run (if path.head? = some slash then iget t.fs ROOTINO
      else .ok (idup t.fs cwd, cwd))
  namexLoop sb devsw parent path.length t ip path

def namei (t : Task) (cwd : Nat) (path : List UInt8) : Except Halt (Task × Option Nat) := do
  let (t, found) ← namex sb devsw t cwd path false
  .ok (t, found.map Prod.fst)

def nameiparent (t : Task) (cwd : Nat) (path : List UInt8) :
    Except Halt (Task × Option (Nat × (Nat → UInt8))) := namex sb devsw t cwd path true

/-- `ip->nlink = nlink; iupdate(ip)`; `nlink` is a `short`. -/
def setNlink (s : State) (ip nlink : Nat) : Except Panic State :=
  iupdate sb (s.setInode ip { s.inode ip with nlink := nlink % 2 ^ 16 }) ip

/-- `ip->nlink++; iupdate(ip)`. -/
def incNlink (s : State) (ip : Nat) : Except Panic State :=
    setNlink sb s ip ((s.inode ip).nlink + 1)

/-- `ip->nlink--; iupdate(ip)`. -/
def decNlink (s : State) (ip : Nat) : Except Panic State :=
  setNlink sb s ip ((s.inode ip).nlink + (2 ^ 16 - 1))

/-- The label `bad` of `sys_link`. -/
def linkBad (t : Task) (ip : Nat) : Except Halt (Task × Bool) := do
  let t ← t.ilock sb ip
  let t ← t.write (decNlink sb t.fs ip)
  let t ← t.iunlockput sb ip
  .ok (t.end_op sb, false)

/-- `sys_link` after it has raised the link count of the inode in slot `ip`. There is one device. -/
def linkName (t : Task) (cwd ip : Nat) (new : List UInt8) : Except Halt (Task × Bool) := do
  let (t, found) ← nameiparent sb devsw t cwd new
  match found with
  | none => linkBad sb t ip
  | some (dp, name) => do
    let t ← t.ilock sb dp
    let (t, linked) ← t.dirlink sb devsw dp name (t.fs.inode ip).inum
    let t ← t.iunlockput sb dp
    if linked then do
      let t ← t.iput sb ip
      .ok (t.end_op sb, true)
    else linkBad sb t ip

/-- Whether `sys_link` returns 0; a path is `none` if `argstr` fails. -/
def sys_link (t : Task) (cwd : Nat) (old new : Option (List UInt8)) : Except Halt (Task × Bool) :=
  match old, new with
  | some old, some new => do
    let t ← t.begin_op
    let (t, found) ← namei sb devsw t cwd old
    match found with
    | none => .ok (t.end_op sb, false)
    | some ip => do
      let t ← t.ilock sb ip
      if (t.fs.inode ip).type = T_DIR then do
        let t ← t.iunlockput sb ip
        .ok (t.end_op sb, false)
      else do
        let t ← t.write (incNlink sb t.fs ip)
        let t ← t.iunlock ip
        linkName sb devsw t cwd ip new
  | _, _ => .ok (t, false)

def isdiremptyLoop (dp : Nat) : Nat → State → Nat → Except Panic (State × Bool)
  | 0, s, _ => .ok (s, true)
  | fuel + 1, s, off =>
    if off < (s.inode dp).size then do
      let (s, de) ← readDirent sb devsw .isdirempty s dp off
      if direntInum de ≠ 0 then .ok (s, false) else isdiremptyLoop dp fuel s (off + DIRENT)
    else .ok (s, true)

def isdirempty (s : State) (dp : Nat) : Except Panic (State × Bool) :=
  isdiremptyLoop sb devsw dp (s.inode dp).size s (2 * DIRENT)

/-- The label `bad` of `sys_unlink`. -/
def unlinkBad (t : Task) (dp : Nat) : Except Halt (Task × Bool) := do
  let t ← t.iunlockput sb dp
  .ok (t.end_op sb, false)

/-- The end of `sys_unlink`: the entry at offset `off` of the directory goes. -/
def unlinkEntry (t : Task) (dp ip off : Nat) : Except Halt (Task × Bool) := do
  let (t, r) ← t.run (writei sb devsw t.fs dp (fun _ => 0) off DIRENT)
  if r ≠ some DIRENT then .error (.panic .unlinkWritei)
  else do
    let t ← t.write (if (t.fs.inode ip).type = T_DIR then decNlink sb t.fs dp else .ok t.fs)
    let t ← t.iunlockput sb dp
    let t ← t.write (decNlink sb t.fs ip)
    let t ← t.iunlockput sb ip
    .ok (t.end_op sb, true)

/-- `sys_unlink` with both inodes in hand. -/
def unlinkFound (t : Task) (dp ip off : Nat) : Except Halt (Task × Bool) := do
  let t ← t.ilock sb ip
  -- a negative `short` is at least 2^15 here
  if (t.fs.inode ip).nlink < 1 ∨ 2 ^ 15 ≤ (t.fs.inode ip).nlink then .error (.panic .unlinkNlink)
  else do
    let (t, empty) ← t.run (if (t.fs.inode ip).type = T_DIR then isdirempty sb devsw t.fs ip
      else .ok (t.fs, true))
    if empty then unlinkEntry sb devsw t dp ip off
    else do
      let t ← t.iunlockput sb ip
      unlinkBad sb t dp

/-- Whether `sys_unlink` returns 0. -/
def sys_unlink (t : Task) (cwd : Nat) (path : Option (List UInt8)) : Except Halt (Task × Bool) :=
  match path with
  | none => .ok (t, false)
  | some path => do
    let t ← t.begin_op
    let (t, found) ← nameiparent sb devsw t cwd path
    match found with
    | none => .ok (t.end_op sb, false)
    | some (dp, name) => do
      let t ← t.ilock sb dp
      if namecmp name dot = 0 ∨ namecmp name dotdot = 0 then unlinkBad sb t dp
      else do
        let (t, entry) ← t.run (dirlookup sb devsw t.fs dp name)
        match entry with
        | none => unlinkBad sb t dp
        | some (ip, off) => unlinkFound sb devsw t dp ip off

/-- The entries `.` and `..` of a new directory. -/
def createDots (t : Task) (dp ip : Nat) : Except Halt Task := do
  let t ← t.write (incNlink sb t.fs dp)
  let (t, first) ← t.dirlink sb devsw ip dot (t.fs.inode ip).inum
  if first then do
    let (t, second) ← t.dirlink sb devsw ip dotdot (t.fs.inode dp).inum
    if second then .ok t else .error (.panic .createDots)
  else .error (.panic .createDots)

/-- `create` when the name is not in the directory. -/
def createNew (t : Task) (dp : Nat) (name : Nat → UInt8) (type major minor : Nat) :
    Except Halt (Task × Nat) := do
  let (t, ip) ← t.run (ialloc sb t.fs type)
  let t ← t.ilock sb ip
  let t ← t.write (iupdate sb (t.fs.setInode ip { t.fs.inode ip with
    major := major % 2 ^ 16, minor := minor % 2 ^ 16, nlink := 1 }) ip)
  let t ← if type = T_DIR then createDots sb devsw t dp ip else .ok t
  let (t, linked) ← t.dirlink sb devsw dp name (t.fs.inode ip).inum
  if linked then do
    let t ← t.iunlockput sb dp
    .ok (t, ip)
  else .error (.panic .createDirlink)

/-- The slot of the new or the old inode, which is locked. -/
def create (t : Task) (cwd : Nat) (path : List UInt8) (type major minor : Nat) :
    Except Halt (Task × Option Nat) := do
  let (t, found) ← nameiparent sb devsw t cwd path
  match found with
  | none => .ok (t, none)
  | some (dp, name) => do
    let t ← t.ilock sb dp
    let (t, entry) ← t.run (dirlookup sb devsw t.fs dp name)
    match entry with
    | some (ip, _) => do
      let t ← t.iunlockput sb dp
      let t ← t.ilock sb ip
      if type = T_FILE ∧ (t.fs.inode ip).type = T_FILE then .ok (t, some ip)
      else do
        let t ← t.iunlockput sb ip
        .ok (t, none)
    | none => do
      let (t, ip) ← createNew sb devsw t dp name type major minor
      .ok (t, some ip)

/-- The inode of `sys_open`, locked. -/
def openInode (t : Task) (cwd : Nat) (path : List UInt8) (omode : Nat) :
    Except Halt (Task × Option Nat) :=
  if omode &&& O_CREATE ≠ 0 then create sb devsw t cwd path T_FILE 0 0
  else do
    let (t, found) ← namei sb devsw t cwd path
    match found with
    | none => .ok (t, none)
    | some ip => do
      let t ← t.ilock sb ip
      if (t.fs.inode ip).type = T_DIR ∧ omode ≠ 0 then do
        let t ← t.iunlockput sb ip
        .ok (t, none)
      else .ok (t, some ip)

/-- `sys_mkdir` and `sys_mknod` drop the inode that `create` returns. -/
def makeNode (t : Task) (cwd : Nat) (path : Option (List UInt8)) (type major minor : Nat) :
    Except Halt (Task × Bool) := do
  let t ← t.begin_op
  match path with
  | none => .ok (t.end_op sb, false)
  | some path => do
    let (t, found) ← create sb devsw t cwd path type major minor
    match found with
    | none => .ok (t.end_op sb, false)
    | some ip => do
      let t ← t.iunlockput sb ip
      .ok (t.end_op sb, true)

def sys_mkdir (t : Task) (cwd : Nat) (path : Option (List UInt8)) : Except Halt (Task × Bool) :=
  makeNode sb devsw t cwd path T_DIR 0 0

/-- `path` is `none` if `argstr` or `argint` fails. -/
def sys_mknod (t : Task) (cwd : Nat) (path : Option (List UInt8)) (major minor : Nat) :
    Except Halt (Task × Bool) := makeNode sb devsw t cwd path T_DEV major minor

/-- The slot of the new directory, if `sys_chdir` returns 0. -/
def sys_chdir (t : Task) (cwd : Nat) (path : Option (List UInt8)) :
    Except Halt (Task × Option Nat) := do
  let t ← t.begin_op
  match path with
  | none => .ok (t.end_op sb, none)
  | some path => do
    let (t, found) ← namei sb devsw t cwd path
    match found with
    | none => .ok (t.end_op sb, none)
    | some ip => do
      let t ← t.ilock sb ip
      if (t.fs.inode ip).type ≠ T_DIR then do
        let t ← t.iunlockput sb ip
        .ok (t.end_op sb, none)
      else do
        let t ← t.iunlock ip
        let t ← t.iput sb cwd
        .ok (t.end_op sb, some ip)

end Xv6.Fs.Names
