import Xv6.Lib.Bytes
import Xv6.Lib.Scan
import Xv6.Param

/- fs.c over the blocks that `bread` shows, inside a transaction of one process. Every change of a
block goes through `log_write`; there is one disk device. A panic is an error of `Except`. -/
namespace Xv6.Fs

open Bytes Function

/-- The number of block addresses in an inode. -/
abbrev NADDRS : Nat := NDIRECT + 3
/-- A `struct dinode` has 64 bytes. -/
abbrev IPB : Nat := BSIZE / 64
abbrev BPB : Nat := BSIZE * 8
abbrev DIRSIZ : Nat := 14
abbrev T_DIR : Nat := 1
abbrev T_FILE : Nat := 2
abbrev T_DEV : Nat := 3

/-- `struct superblock`, with the order of the areas that mkfs gives the disk. The last `nblocks`
of the `size` blocks are data blocks. -/
structure Superblock where
  size : Nat
  nblocks : Nat
  ninodes : Nat
  nlog : Nat
  logstart : Nat
  inodestart : Nat
  bmapstart : Nat
  logFirst : logstart + nlog ≤ inodestart
  inodesNext : inodestart + ninodes / IPB < bmapstart
  bitmapNext : bmapstart + size / BPB < size - nblocks
  small : size < 2 ^ 31

/-- The metadata ends here. -/
def Superblock.dataStart (sb : Superblock) : Nat := sb.size - sb.nblocks

/-- The fields of a `struct dinode`; `short`s are read without sign. -/
structure Dinode where
  type : Nat
  major : Nat
  minor : Nat
  nlink : Nat
  size : Nat
  addrs : Nat → Nat

/-- `struct inode`: a slot of the inode cache with its copy of the disk inode. -/
structure Inode extends Dinode where
  inum : Nat
  ref : Nat
  valid : Bool

/-- The blocks, the slots of `icache`, and the blocks in `log.lh`. -/
structure State where
  disk : Nat → Block
  inode : Nat → Inode
  lh : List Nat

inductive Panic where
  | tooBigTransaction
  | outOfBlocks
  | freeingFreeBlock
  | noInodes
  | igetNoInodes
  | ilockNoType
  | bmapOutOfRange
  | dirlookupNotDir
  | dirlookupRead
  | dirlinkRead
  | dirlink
  | fileread
  | filewrite
  | filepread
  | filepwrite
  | shortFilewrite
  | isdirempty
  | unlinkNlink
  | unlinkWritei
  | createDots
  | createDirlink
  | ilock
  | iunlock
deriving DecidableEq

/-- The effect of `log_write` on a block that now holds `data`. -/
def State.store (s : State) (b : Nat) (data : Block) : State :=
  { s with
    disk := update s.disk b data
    lh := if b ∈ s.lh then s.lh else s.lh ++ [b] }

/-- `log_write` inside a transaction; `log.size` is `sb.nlog`. -/
def State.logWrite (sb : Superblock) (s : State) (b : Nat) (data : Block) : Except Panic State :=
  if s.lh.length ≥ LOGSIZE ∨ s.lh.length + 1 ≥ sb.nlog then .error .tooBigTransaction
  else .ok (s.store b data)

/-- `end_op` of the last operation: a log more than half full is committed. -/
def endOp (sb : Superblock) (s : State) : State :=
  if s.lh.length > sb.nlog / 2 then { s with lh := [] } else s

def State.setInode (s : State) (k : Nat) (ip : Inode) : State :=
  { s with inode := update s.inode k ip }

def bzero (sb : Superblock) (s : State) (bno : Nat) : Except Panic State :=
  s.logWrite sb bno zero

/-- `BBLOCK`. -/
def bblock (sb : Superblock) (b : Nat) : Nat := b / BPB + sb.bmapstart

/-- The bit of block `b` in the free map. -/
def inUse (sb : Superblock) (disk : Nat → Block) (b : Nat) : Bool :=
  getBit (disk (bblock sb b)) (b % BPB)

/-- The two loops of the source visit the blocks in order. -/
def balloc (sb : Superblock) (s : State) : Except Panic (State × Nat) :=
  match Scan.first (fun b => !inUse sb s.disk b) sb.size 0 with
  | none => .error .outOfBlocks
  | some b => do
    let s ← s.logWrite sb (bblock sb b) (setBit (s.disk (bblock sb b)) (b % BPB))
    let s ← bzero sb s b
    .ok (s, b)

def bfree (sb : Superblock) (s : State) (b : Nat) : Except Panic State :=
  if inUse sb s.disk b then
    s.logWrite sb (bblock sb b) (clearBit (s.disk (bblock sb b)) (b % BPB))
  else .error .freeingFreeBlock

/-- `IBLOCK`. -/
def iblock (sb : Superblock) (inum : Nat) : Nat := inum / IPB + sb.inodestart

def getDinode (block : Block) (index : Nat) : Dinode :=
  { type := getHalf block (32 * index)
    major := getHalf block (32 * index + 1)
    minor := getHalf block (32 * index + 2)
    nlink := getHalf block (32 * index + 3)
    size := getWord block (16 * index + 2)
    addrs := fun j => getWord block (j + (16 * index + 3)) }

def putDinode (block : Block) (index : Nat) (dip : Dinode) : Block :=
  let block := setHalf block (32 * index) dip.type
  let block := setHalf block (32 * index + 1) dip.major
  let block := setHalf block (32 * index + 2) dip.minor
  let block := setHalf block (32 * index + 3) dip.nlink
  let block := setWord block (16 * index + 2) dip.size
  setWords block (16 * index + 3) NADDRS dip.addrs

/-- The disk inode as `bread` shows it. -/
def dinode (sb : Superblock) (disk : Nat → Block) (inum : Nat) : Dinode :=
  getDinode (disk (iblock sb inum)) (inum % IPB)

/-- Store a disk inode and log its block. -/
def putInode (sb : Superblock) (s : State) (inum : Nat) (dip : Dinode) : Except Panic State :=
  s.logWrite sb (iblock sb inum) (putDinode (s.disk (iblock sb inum)) (inum % IPB) dip)

def iupdate (sb : Superblock) (s : State) (k : Nat) : Except Panic State :=
  putInode sb s (s.inode k).inum (s.inode k).toDinode

def iget (s : State) (inum : Nat) : Except Panic (State × Nat) :=
  match Scan.first (fun k => decide (0 < (s.inode k).ref) && (s.inode k).inum == inum) NINODE 0 with
  | some k => .ok (s.setInode k { s.inode k with ref := (s.inode k).ref + 1 }, k)
  | none =>
    match Scan.first (fun k => (s.inode k).ref == 0) NINODE 0 with
    | none => .error .igetNoInodes
    | some k => .ok (s.setInode k { s.inode k with inum := inum, ref := 1, valid := false }, k)

def idup (s : State) (k : Nat) : State := s.setInode k { s.inode k with ref := (s.inode k).ref + 1 }

def ialloc (sb : Superblock) (s : State) (type : Nat) : Except Panic (State × Nat) :=
  match Scan.first (fun inum => (dinode sb s.disk inum).type == 0) (sb.ninodes - 1) 1 with
  | none => .error .noInodes
  | some inum => do
    let s ← putInode sb s inum ⟨type, 0, 0, 0, 0, fun _ => 0⟩
    iget s inum

def ilock (sb : Superblock) (s : State) (k : Nat) : Except Panic State :=
  let ip := s.inode k
  if ip.valid then .ok s
  else
    let dip := dinode sb s.disk ip.inum
    if dip.type = 0 then .error .ilockNoType
    else .ok (s.setInode k { ip with toDinode := dip, valid := true })

/-- `bmap`'s step through `ip->addrs[j]`. -/
def rootEntry (sb : Superblock) (s : State) (k j : Nat) : Except Panic (State × Nat) :=
  if (s.inode k).addrs j = 0 then do
    let (s, addr) ← balloc sb s
    .ok (s.setInode k { s.inode k with addrs := update (s.inode k).addrs j addr }, addr)
  else .ok (s, (s.inode k).addrs j)

/-- `bmap`'s step through the entry `a[i]` of index block `node`. -/
def indexEntry (sb : Superblock) (s : State) (node i : Nat) : Except Panic (State × Nat) :=
  if getWord (s.disk node) i = 0 then do
    let (s, addr) ← balloc sb s
    let s ← s.logWrite sb node (setWord (s.disk node) i addr)
    .ok (s, addr)
  else .ok (s, getWord (s.disk node) i)

def bmap (sb : Superblock) (s : State) (k bn : Nat) : Except Panic (State × Nat) :=
  if bn < NDIRECT then rootEntry sb s k bn
  else
    let bn := bn - NDIRECT
    if bn < NINDIRECT then do
      let (s, addr) ← rootEntry sb s k NDIRECT
      indexEntry sb s addr bn
    else
      let bn := bn - NINDIRECT
      if bn < NDOUINDIRECT then do
        let (s, addr) ← rootEntry sb s k (NDIRECT + 1)
        let (s, addr) ← indexEntry sb s addr (bn / NINDIRECT)
        indexEntry sb s addr (bn % NINDIRECT)
      else
        let bn := bn - NDOUINDIRECT
        if bn < NTRIINDIRECT then do
          let (s, addr) ← rootEntry sb s k (NDIRECT + 2)
          let (s, addr) ← indexEntry sb s addr (bn / NDOUINDIRECT)
          let (s, addr) ← indexEntry sb s addr (bn % NDOUINDIRECT / NINDIRECT)
          indexEntry sb s addr (bn % NDOUINDIRECT % NINDIRECT)
        else .error .bmapOutOfRange

/-- The nested loops of `itrunc`: free all blocks below index block `addr`, then the block. -/
def freeTree (sb : Superblock) : Nat → State → Nat → Except Panic State
  | 0, s, addr => bfree sb s addr
  | depth + 1, s, addr => do
    let s ← (List.range NINDIRECT).foldlM (fun s j =>
      if getWord (s.disk addr) j ≠ 0 then freeTree sb depth s (getWord (s.disk addr) j)
      else .ok s) s
    bfree sb s addr

/-- `itrunc` for `ip->addrs[j]`, below which there are `depth` levels. -/
def truncEntry (sb : Superblock) (k : Nat) (s : State) (j depth : Nat) : Except Panic State :=
  if (s.inode k).addrs j ≠ 0 then do
    let s ← freeTree sb depth s ((s.inode k).addrs j)
    .ok (s.setInode k { s.inode k with addrs := update (s.inode k).addrs j 0 })
  else .ok s

def itrunc (sb : Superblock) (s : State) (k : Nat) : Except Panic State := do
  let s ← (List.range NDIRECT).foldlM (fun s j => truncEntry sb k s j 0) s
  let s ← truncEntry sb k s NDIRECT 1
  let s ← truncEntry sb k s (NDIRECT + 1) 2
  let s ← truncEntry sb k s (NDIRECT + 2) 3
  iupdate sb (s.setInode k { s.inode k with size := 0 }) k

def iput (sb : Superblock) (s : State) (k : Nat) : Except Panic State := do
  let s ← if (s.inode k).valid ∧ (s.inode k).nlink = 0 ∧ (s.inode k).ref = 1 then do
      let s ← itrunc sb s k
      let s ← iupdate sb (s.setInode k { s.inode k with type := 0 }) k
      .ok (s.setInode k { s.inode k with valid := false })
    else .ok s
  .ok (s.setInode k { s.inode k with ref := (s.inode k).ref - 1 })

/-- `devsw`: the functions of each major device, if any; `none` as a result is -1. -/
structure Devsw where
  read : Nat → Option (Nat → Option (List UInt8))
  write : Nat → Option ((Nat → UInt8) → Nat → Option Nat)

def readiLoop (sb : Superblock) (k n : Nat) : Nat → State → Nat → Nat →
    Except Panic (State × List UInt8)
  | 0, s, _, _ => .ok (s, [])
  | fuel + 1, s, tot, off =>
    if tot < n then do
      let (s, addr) ← bmap sb s k (off / BSIZE)
      let m := min (n - tot) (BSIZE - off % BSIZE)
      let bytes := (List.range m).map fun i => s.disk addr (off % BSIZE + i)
      let (s, rest) ← readiLoop sb k n fuel s (tot + m) (off + m)
      .ok (s, bytes ++ rest)
    else .ok (s, [])

/-- The bytes put into `dst`, whose number is the return value, or `none` for -1. -/
def readi (sb : Superblock) (devsw : Devsw) (s : State) (k off n : Nat) :
    Except Panic (State × Option (List UInt8)) :=
  let ip := s.inode k
  if ip.type = T_DEV then
    -- a negative `short` is at least 2^15 here
    if ip.major ≥ NDEV then .ok (s, none)
      else .ok (s, (devsw.read ip.major).bind fun read => read n)
  else if off > ip.size ∨ (off + n) % 2 ^ 32 < off then .ok (s, none)
  else do
    let n := if (off + n) % 2 ^ 32 > ip.size then ip.size - off else n
    let (s, bytes) ← readiLoop sb k n n s 0 off
    .ok (s, some bytes)

def writeiLoop (sb : Superblock) (k : Nat) (src : Nat → UInt8) (n : Nat) :
    Nat → State → Nat → Nat → Except Panic (State × Nat)
  | 0, s, _, off => .ok (s, off)
  | fuel + 1, s, tot, off =>
    if tot < n then do
      let (s, addr) ← bmap sb s k (off / BSIZE)
      let m := min (n - tot) (BSIZE - off % BSIZE)
      let s ← s.logWrite sb addr (splice (s.disk addr) (off % BSIZE) m fun i => src (tot + i))
      writeiLoop sb k src n fuel s (tot + m) (off + m)
    else .ok (s, off)

/-- The return value, or `none` for -1. -/
def writei (sb : Superblock) (devsw : Devsw) (s : State) (k : Nat) (src : Nat → UInt8)
    (off n : Nat) :
    Except Panic (State × Option Nat) :=
  let ip := s.inode k
  if ip.type = T_DEV then
    if ip.major ≥ NDEV then .ok (s, none)
    else .ok (s, (devsw.write ip.major).bind fun write => write src n)
  else if off > ip.size ∨ (off + n) % 2 ^ 32 < off then .ok (s, none)
  else if (off + n) % 2 ^ 32 > MAXFILE * BSIZE then .ok (s, none)
  else do
    let (s, off) ← writeiLoop sb k src n n s 0 off
    if n > 0 ∧ off > (s.inode k).size then do
      let s ← iupdate sb (s.setInode k { s.inode k with size := off }) k
      .ok (s, some n)
    else .ok (s, some n)

/-- `sizeof(struct dirent)`. -/
abbrev DIRENT : Nat := 2 + DIRSIZ

/-- `de.inum`. -/
def direntInum (de : List UInt8) : Nat := (de.getD 0 0).toNat + 256 * (de.getD 1 0).toNat

/-- `de.name`. -/
def direntName (de : List UInt8) (i : Nat) : UInt8 := de.getD (2 + i) 0

/-- `strncmp` on the strings from index `i` on. -/
def strncmp (p q : Nat → UInt8) : Nat → Nat → Int
  | 0, _ => 0
  | n + 1, i =>
    if p i ≠ 0 ∧ p i = q i then strncmp p q n (i + 1) else ((p i).toNat : Int) - (q i).toNat

def namecmp (s t : Nat → UInt8) : Int := strncmp s t DIRSIZ 0

/-- Byte `i` of what `strncpy` copies from `t`: behind the end of the string all is zero. -/
def strncpy (t : Nat → UInt8) (i : Nat) : UInt8 :=
  if (List.range i).any (fun j => t j == 0) then 0 else t i

/-- The new entry of `dirlink`; `de.inum` is a `ushort`. -/
def dirent (name : Nat → UInt8) (inum : Nat) (i : Nat) : UInt8 :=
  if i = 0 then UInt8.ofNat inum else if i = 1 then UInt8.ofNat (inum / 256)
    else strncpy name (i - 2)

/-- One entry of the directory in slot `k`. -/
def readDirent (sb : Superblock) (devsw : Devsw) (panic : Panic) (s : State) (k off : Nat) :
    Except Panic (State × List UInt8) := do
  let (s, r) ← readi sb devsw s k off DIRENT
  match r with
  | some de => if de.length = DIRENT then .ok (s, de) else .error panic
  | none => .error panic

/-- The offset and the inode number of the entry that is looked for. -/
def dirlookupLoop (sb : Superblock) (devsw : Devsw) (k : Nat) (name : Nat → UInt8) :
    Nat → State → Nat → Except Panic (State × Option (Nat × Nat))
  | 0, s, _ => .ok (s, none)
  | fuel + 1, s, off =>
    if off < (s.inode k).size then do
      let (s, de) ← readDirent sb devsw .dirlookupRead s k off
      if direntInum de ≠ 0 ∧ namecmp name (direntName de) = 0
        then .ok (s, some (off, direntInum de))
      else dirlookupLoop sb devsw k name fuel s (off + DIRENT)
    else .ok (s, none)

/-- The slot of the entry's inode and `*poff`. -/
def dirlookup (sb : Superblock) (devsw : Devsw) (s : State) (k : Nat) (name : Nat → UInt8) :
    Except Panic (State × Option (Nat × Nat)) :=
  if (s.inode k).type ≠ T_DIR then .error .dirlookupNotDir
  else do
    let (s, found) ← dirlookupLoop sb devsw k name (s.inode k).size s 0
    match found with
    | some (off, inum) => do
      let (s, ip) ← iget s inum
      .ok (s, some (ip, off))
    | none => .ok (s, none)

/-- The loop of `dirlink` that looks for an empty entry. -/
def dirlinkLoop (sb : Superblock) (devsw : Devsw) (k : Nat) :
    Nat → State → Nat → Except Panic (State × Nat)
  | 0, s, off => .ok (s, off)
  | fuel + 1, s, off =>
    if off < (s.inode k).size then do
      let (s, de) ← readDirent sb devsw .dirlinkRead s k off
      if direntInum de = 0 then .ok (s, off) else dirlinkLoop sb devsw k fuel s (off + DIRENT)
    else .ok (s, off)

/-- Whether `dirlink` returns 0. -/
def dirlink (sb : Superblock) (devsw : Devsw) (s : State) (k : Nat) (name : Nat → UInt8)
    (inum : Nat) :
    Except Panic (State × Bool) := do
  let (s, found) ← dirlookup sb devsw s k name
  match found with
  | some (ip, _) => do
    let s ← iput sb s ip
    .ok (s, false)
  | none => do
    let (s, off) ← dirlinkLoop sb devsw k (s.inode k).size s 0
    let (s, r) ← writei sb devsw s k (dirent name inum) off DIRENT
    if r = some DIRENT then .ok (s, true) else .error .dirlink

end Xv6.Fs
