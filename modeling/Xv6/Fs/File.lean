import Xv6.Fs.Contents

/- file.c: reading and writing an open file in transactions of limited size, at the file's own
offset or at a given one. -/
namespace Xv6.Fs

open Bytes Outcome Overlay

inductive FileType where
  | none
  | pipe
  | inode
deriving DecidableEq

/-- `struct file`; `ip` is a slot of the inode cache. -/
structure File where
  type : FileType
  readable : Bool
  writable : Bool
  ip : Nat
  off : Nat
deriving DecidableEq

/-- What lies behind `readi` and `writei` on devices, and `piperead` and `pipewrite`. -/
structure Outside where
  devsw : Devsw
  piperead : Nat → Option (List UInt8)
  pipewrite : (Nat → UInt8) → Nat → Option Nat

/-- The variable `max` of `filewrite`. -/
abbrev MAXCHUNK : Nat := (MAXOPBLOCKS - 1 - 1 - 2) / 2 * 512

variable (sb : Superblock) (out : Outside)

def fileread (s : State) (f : File) (n : Nat) :
    Except Panic (State × File × Option (List UInt8)) :=
  if f.readable = false then .ok (s, f, none)
  else match f.type with
    | .pipe => .ok (s, f, out.piperead n)
    | .inode => do
      let s ← ilock sb s f.ip
      let (s, r) ← readi sb out.devsw s f.ip f.off n
      .ok (s, { f with off := f.off + (r.getD []).length }, r)
    | .none => .error .fileread

def filepread (s : State) (f : File) (n off : Nat) :
    Except Panic (State × File × Option (List UInt8)) :=
  if f.readable = false then .ok (s, f, none)
  else match f.type with
    | .pipe => .ok (s, f, out.piperead n)
    | .inode => do
      let s ← ilock sb s f.ip
      let (s, r) ← readi sb out.devsw s f.ip off n
      .ok (s, f, r)
    | .none => .error .filepread

/-- The `while` loop of `filewrite`, with `f->off` and `i`. -/
def filewriteLoop (src : Nat → UInt8) (n k : Nat) :
    Nat → State → Nat → Nat → Except Panic (State × Nat × Nat)
  | 0, s, off, i => .ok (s, off, i)
  | fuel + 1, s, off, i =>
    if i < n then do
      let n1 := if n - i > MAXCHUNK then MAXCHUNK else n - i
      let s ← ilock sb s k
      let (s, r) ← writei sb out.devsw s k (fun j => src (i + j)) off n1
      let off := off + r.getD 0
      let s := endOp sb s
      match r with
      | none => .ok (s, off, i)
      | some r =>
        if r ≠ n1 then .error .shortFilewrite
        else filewriteLoop src n k fuel s off (i + r)
    else .ok (s, off, i)

def filewrite (s : State) (f : File) (src : Nat → UInt8) (n : Nat) :
    Except Panic (State × File × Option Nat) :=
  if f.writable = false then .ok (s, f, none)
  else match f.type with
    | .pipe => .ok (s, f, out.pipewrite src n)
    | .inode => do
      let (s, off, i) ← filewriteLoop sb out src n f.ip n s f.off 0
      .ok (s, { f with off := off }, if i = n then some n else none)
    | .none => .error .filewrite

/-- The `while` loop of `filepwrite`: every call of `writei` gets the same offset. -/
def filepwriteLoop (src : Nat → UInt8) (n k off : Nat) : Nat → State → Nat →
    Except Panic (State × Nat)
  | 0, s, i => .ok (s, i)
  | fuel + 1, s, i =>
    if i < n then do
      let n1 := if n - i > MAXCHUNK then MAXCHUNK else n - i
      let s ← ilock sb s k
      let (s, r) ← writei sb out.devsw s k (fun j => src (i + j)) off n1
      let s := endOp sb s
      match r with
      | none => .ok (s, i)
      | some r =>
        if r ≠ n1 then .error .shortFilewrite
        else filepwriteLoop src n k off fuel s (i + r)
    else .ok (s, i)

def filepwrite (s : State) (f : File) (src : Nat → UInt8) (n off : Nat) :
    Except Panic (State × File × Option Nat) :=
  if f.writable = false then .ok (s, f, none)
  else match f.type with
    | .pipe => .ok (s, f, out.pipewrite src n)
    | .inode => do
      let (s, i) ← filepwriteLoop sb out src n f.ip off n s 0
      .ok (s, f, if i = n then some n else none)
    | .none => .error .filepwrite

section Length

variable {sb out} {s t : State} {f g : File} {r : Option (List UInt8)} {bytes : List UInt8}
    {k n off : Nat}

end Length

end Xv6.Fs
