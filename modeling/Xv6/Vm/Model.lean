import Mathlib.Logic.Function.Basic
import Xv6.Param

/- kalloc.c and vm.c. Physical pages are numbers, zero for a null pointer. A page directory is the
list of the page tables of the kernel's half, which `setupkvm` fills, and the page tables of the
user half; an entry that is not present is `none`. The addresses that the loops go through are
multiples of the page size and are given as page numbers. -/
namespace Xv6

open Function

/-- What stops the kernel: a panic, or an access that C leaves undefined. -/
inductive Stop where
  | remap
  | kfree
  | kfree1
  | freevmNoPgdir
  | clearpteu
  | copyuvmPteShouldExist
  | copyuvmPageNotPresent
  | loaduvmAligned
  | loaduvmAddress
  | userinit
  | initExiting
  | schedRunning
  | noMoreThreading
  | divideError
  | undefined
deriving DecidableEq

namespace Vm

abbrev PGSIZE : Nat := 4096
abbrev NPTENTRIES : Nat := 1024
abbrev KERNBASE : Nat := 0x80000000
abbrev PHYSTOP : Nat := 0xE000000
abbrev DEVSPACE : Nat := 0xFE000000

/-- The page tables that the mappings of `kmap` need: `KERNBASE` to `KERNBASE + PHYSTOP`, and
`DEVSPACE` to the end. -/
abbrev KERNTABLES : Nat :=
  PHYSTOP / (PGSIZE * NPTENTRIES) + (2 ^ 32 - DEVSPACE) / (PGSIZE * NPTENTRIES)

/-- `PGROUNDUP(sz)`, as a page number. -/
def pages (sz : Nat) : Nat := (sz + PGSIZE - 1) / PGSIZE

/-- A page-table entry that is present. -/
structure Pte where
  frame : Nat
  write : Bool
  user : Bool
deriving DecidableEq

structure Pgtab where
  frame : Nat
  pte : Nat → Option Pte

structure Pgdir where
  kernel : List Nat
  pgtab : Nat → Option Pgtab

/-- `kmem.freelist` and the bytes of every page. -/
structure Mem where
  freelist : List Nat
  page : Nat → Nat → UInt8

def kalloc (m : Mem) : Mem × Option Nat :=
  match m.freelist with
  | [] => (m, none)
  | frame :: rest => ({ m with freelist := rest }, some frame)

def memset (m : Mem) (frame : Nat) (byte : UInt8) : Mem :=
  { m with page := update m.page frame fun _ => byte }

def kfree (m : Mem) (frame : Nat) : Mem :=
  { memset m frame 1 with freelist := frame :: m.freelist }

/-- The entry of page `v`. -/
def Pgdir.entry (dir : Pgdir) (v : Nat) : Option Pte :=
  (dir.pgtab (v / NPTENTRIES)).bind fun table => table.pte (v % NPTENTRIES)

/-- Store into an entry of a page table that exists. -/
def Pgdir.setEntry (dir : Pgdir) (v : Nat) (pte : Option Pte) : Pgdir :=
  match dir.pgtab (v / NPTENTRIES) with
  | none => dir
  | some table =>
    { dir with
      pgtab := update dir.pgtab (v / NPTENTRIES)
        (some { table with pte := update table.pte (v % NPTENTRIES) pte }) }

/-- `walkpgdir` with `alloc` set: whether there is a page table for page `v` now. -/
def walkpgdir (m : Mem) (dir : Pgdir) (v : Nat) : Mem × Pgdir × Bool :=
  match dir.pgtab (v / NPTENTRIES) with
  | some _ => (m, dir, true)
  | none =>
    match kalloc m with
    | (m, none) => (m, dir, false)
    | (m, some frame) =>
      (memset m frame 0, { dir with
          pgtab := update dir.pgtab (v / NPTENTRIES) (some ⟨frame, fun _ => none⟩) },
        true)

/-- `mappages` for one page; whether it returns 0. -/
def mappages (m : Mem) (dir : Pgdir) (v : Nat) (pte : Pte) : Except Stop (Mem × Pgdir × Bool) :=
  match walkpgdir m dir v with
  | (m, dir, false) => .ok (m, dir, false)
  | (m, dir, true) =>
    if (dir.entry v).isSome then .error .remap else .ok (m, dir.setEntry v (some pte), true)

/-- A page table that does not exist is skipped as a whole. -/
def deallocuvmLoop (oldsz : Nat) : Nat → Mem → Pgdir → Nat → Except Stop (Mem × Pgdir)
  | 0, m, dir, _ => .ok (m, dir)
  | fuel + 1, m, dir, v =>
    if v * PGSIZE < oldsz then
      match dir.pgtab (v / NPTENTRIES) with
      | none => deallocuvmLoop oldsz fuel m dir ((v / NPTENTRIES + 1) * NPTENTRIES)
      | some _ =>
        match dir.entry v with
        | none => deallocuvmLoop oldsz fuel m dir (v + 1)
        | some pte =>
          if pte.frame = 0 then .error .kfree
          else deallocuvmLoop oldsz fuel (kfree m pte.frame) (dir.setEntry v none) (v + 1)
    else .ok (m, dir)

def deallocuvm (m : Mem) (dir : Pgdir) (oldsz newsz : Nat) : Except Stop (Mem × Pgdir × Nat) :=
  if newsz ≥ oldsz then .ok (m, dir, oldsz)
  else do
    let (m, dir) ← deallocuvmLoop oldsz (pages oldsz) m dir (pages newsz)
    .ok (m, dir, newsz)

/-- The size, or 0 when there is no memory left. -/
def allocuvmLoop (oldsz newsz : Nat) : Nat → Mem → Pgdir → Nat → Except Stop (Mem × Pgdir × Nat)
  | 0, m, dir, _ => .ok (m, dir, newsz)
  | fuel + 1, m, dir, v =>
    if v * PGSIZE < newsz then
      match kalloc m with
      | (m, none) => do
        let (m, dir, _) ← deallocuvm m dir newsz oldsz
        .ok (m, dir, 0)
      | (m, some frame) => do
        let (m, dir, done) ← mappages (memset m frame 0) dir v ⟨frame, true, true⟩
        if done then allocuvmLoop oldsz newsz fuel m dir (v + 1)
        else do
          let (m, dir, _) ← deallocuvm m dir newsz oldsz
          .ok (kfree m frame, dir, 0)
    else .ok (m, dir, newsz)

def allocuvm (m : Mem) (dir : Pgdir) (oldsz newsz : Nat) : Except Stop (Mem × Pgdir × Nat) :=
  if newsz ≥ KERNBASE then .ok (m, dir, 0)
  else if newsz < oldsz then .ok (m, dir, oldsz)
  else allocuvmLoop oldsz newsz (pages newsz) m dir (pages oldsz)

/-- Free the page table at index `i` of the user half. -/
def freeTable (dir : Pgdir) (m : Mem) (i : Nat) : Mem :=
  match dir.pgtab i with
  | some table => kfree m table.frame
  | none => m

/-- `freevm` of the directory in page `d`. -/
def freevm (m : Mem) (d : Nat) (dir : Pgdir) : Except Stop Mem := do
  let (m, dir, _) ← deallocuvm m dir KERNBASE 0
  let m := (List.range (KERNBASE / (PGSIZE * NPTENTRIES))).foldl (freeTable dir) m
  .ok (kfree (dir.kernel.foldl kfree m) d)

/-- The loops of `setupkvm` take one page for each page table of the kernel's half. -/
def setupkvmLoop (d : Nat) : Nat → Mem → Pgdir → Except Stop (Mem × Option (Nat × Pgdir))
  | 0, m, dir => .ok (m, some (d, dir))
  | count + 1, m, dir =>
    match kalloc m with
    | (m, none) => do
      let m ← freevm m d dir
      .ok (m, none)
    | (m, some frame) =>
      setupkvmLoop d count (memset m frame 0) { dir with kernel := dir.kernel ++ [frame] }

/-- A new directory and its page. -/
def setupkvm (m : Mem) : Except Stop (Mem × Option (Nat × Pgdir)) :=
  match kalloc m with
  | (m, none) => .ok (m, none)
  | (m, some d) => setupkvmLoop d KERNTABLES (memset m d 0) ⟨[], fun _ => none⟩

def clearpteu (dir : Pgdir) (v : Nat) : Except Stop Pgdir :=
  match dir.pgtab (v / NPTENTRIES) with
  | none => .error .clearpteu
  | some _ => .ok (dir.setEntry v ((dir.entry v).map fun pte => { pte with user := false }))

/-- What `readi` copies out of a file with these bytes. -/
def readFile (file : List UInt8) (off n : Nat) : List UInt8 :=
  if off + n < 2 ^ 32 then (file.drop off).take n else []

/-- Page `i` of a segment goes to page `v + i`. An entry that is not present has address zero, which
is no page of the user. -/
def loaduvmLoop (dir : Pgdir) (v : Nat) (file : List UInt8) (offset sz : Nat) :
    Nat → Mem → Nat → Except Stop (Mem × Bool)
  | 0, m, _ => .ok (m, true)
  | fuel + 1, m, i =>
    if i * PGSIZE < sz then
      match dir.pgtab ((v + i) / NPTENTRIES) with
      | none => .error .loaduvmAddress
      | some _ =>
        match dir.entry (v + i) with
        | none => .error .undefined
        | some pte =>
          let n := min (sz - i * PGSIZE) PGSIZE
          let bytes := readFile file ((offset + i * PGSIZE) % 2 ^ 32) n
          let page := fun j => if j < bytes.length then bytes.getD j 0 else m.page pte.frame j
          let m := { m with page := update m.page pte.frame page }
          if bytes.length = n then loaduvmLoop dir v file offset sz fuel m (i + 1)
          else .ok (m, false)
    else .ok (m, true)

/-- Whether `loaduvm` returns 0. -/
def loaduvm (m : Mem) (dir : Pgdir) (addr : Nat) (file : List UInt8) (offset sz : Nat) :
    Except Stop (Mem × Bool) :=
  if addr % PGSIZE ≠ 0 then .error .loaduvmAligned
  else loaduvmLoop dir (addr / PGSIZE) file offset sz (pages sz) m 0

def copyuvmLoop (source : Pgdir) (sz d : Nat) :
    Nat → Mem → Pgdir → Nat → Except Stop (Mem × Option (Nat × Pgdir))
  | 0, m, dir, _ => .ok (m, some (d, dir))
  | fuel + 1, m, dir, v =>
    if v * PGSIZE < sz then
      match source.pgtab (v / NPTENTRIES) with
      | none => .error .copyuvmPteShouldExist
      | some _ =>
        match source.entry v with
        | none => .error .copyuvmPageNotPresent
        | some pte =>
          match kalloc m with
          | (m, none) => do
            let m ← freevm m d dir
            .ok (m, none)
          | (m, some frame) => do
            let m := { m with page := update m.page frame (m.page pte.frame) }
            let (m, dir, done) ← mappages m dir v { pte with frame := frame }
            if done then copyuvmLoop source sz d fuel m dir (v + 1)
            else do
              let m ← freevm (kfree m frame) d dir
              .ok (m, none)
    else .ok (m, some (d, dir))

def copyuvm (m : Mem) (source : Pgdir) (sz : Nat) : Except Stop (Mem × Option (Nat × Pgdir)) := do
  let (m, made) ← setupkvm m
  match made with
  | none => .ok (m, none)
  | some (d, dir) => copyuvmLoop source sz d (pages sz) m dir 0

/-- `uva2ka` reads an entry without asking whether its page table exists. -/
def uva2ka (dir : Pgdir) (v : Nat) : Except Stop (Option Nat) :=
  match dir.pgtab (v / NPTENTRIES) with
  | none => .error .undefined
  | some _ => .ok ((dir.entry v).bind fun pte => if pte.user then some pte.frame else none)

/-- Whether `copyout` returns 0. One round writes up to the end of a page. -/
def copyoutLoop (dir : Pgdir) : Nat → Mem → Nat → List UInt8 → Except Stop (Mem × Bool)
  | 0, m, _, _ => .ok (m, true)
  | fuel + 1, m, va, bytes =>
    if bytes.length > 0 then do
      match ← uva2ka dir (va / PGSIZE) with
      | none => .ok (m, false)
      | some frame =>
        let n := min (PGSIZE - va % PGSIZE) bytes.length
        let page := fun i => if va % PGSIZE ≤ i ∧ i < va % PGSIZE + n
          then bytes.getD (i - va % PGSIZE) 0 else m.page frame i
        copyoutLoop dir fuel { m with page := update m.page frame page }
          ((va / PGSIZE + 1) * PGSIZE % 2 ^ 32) (bytes.drop n)
    else .ok (m, true)

def copyout (m : Mem) (dir : Pgdir) (va : Nat) (bytes : List UInt8) : Except Stop (Mem × Bool) :=
  copyoutLoop dir bytes.length m va bytes

end Vm

end Xv6
