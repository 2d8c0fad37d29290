import Xv6.Fs.ReadWrite

/- Files refine growable byte arrays: a sequence of `readi` and `writei` calls on any files gives
the replies of one array for each file. -/
namespace Xv6.Fs

open Bytes Outcome Overlay Function List

variable {sb : Superblock} {devsw : Devsw} {s t : State} {inum : Nat → Nat}
    {files : Nat → List UInt8}

/-- A call on the file in slot `k`, with `uint` arguments, or the end of a transaction. -/
inductive Call where
  | readi (k off n : Nat)
  | writei (k : Nat) (src : Nat → UInt8) (off n : Nat)
  | endOp

inductive Reply where
  | read (bytes : Option (List UInt8))
  | wrote (count : Option Nat)
  | ended

/-- The slot holds a loaded inode that is not a device, and the arguments are `uint`s. -/
def Call.Allowed (s : State) : Call → Prop
  | .readi k off n => (Open s k ∧ (s.inode k).type ≠ T_DEV) ∧ off < 2 ^ 32 ∧ n < 2 ^ 32
  | .writei k _ off n => (Open s k ∧ (s.inode k).type ≠ T_DEV) ∧ off < 2 ^ 32 ∧ n < 2 ^ 32
  | .endOp => True

def call (sb : Superblock) (devsw : Devsw) (s : State) : Call → Except Panic (State × Reply)
  | .readi k off n => do
    let (s, bytes) ← readi sb devsw s k off n
    .ok (s, .read bytes)
  | .writei k src off n => do
    let (s, count) ← writei sb devsw s k src off n
    .ok (s, .wrote count)
  | .endOp => .ok (Fs.endOp sb s, .ended)

def calls (sb : Superblock) (devsw : Devsw) (s : State) :
    List Call → Except Panic (State × List Reply)
  | [] => .ok (s, [])
  | first :: rest => do
    let (s, reply) ← call sb devsw s first
    let (s, replies) ← calls sb devsw s rest
    .ok (s, reply :: replies)

/-- The same call on byte arrays. -/
def arrayCall (inum : Nat → Nat) (files : Nat → List UInt8) : Call → (Nat → List UInt8) × Reply
  | .readi k off n =>
    if off > (files (inum k)).length ∨ 2 ^ 32 ≤ off + n then (files, .read none)
    else (files, .read (some (((files (inum k)).drop off).take n)))
  | .writei k src off n =>
    if off > (files (inum k)).length ∨ 2 ^ 32 ≤ off + n ∨ off + n > MAXFILE * BSIZE then
      (files, .wrote none)
    else
      (update files (inum k)
        (overlay (files (inum k)) off ((List.range n).map src)), .wrote (some n))
  | .endOp => (files, .ended)

def arrayCalls (inum : Nat → Nat) (files : Nat → List UInt8) :
    List Call → (Nat → List UInt8) × List Reply
  | [] => (files, [])
  | first :: rest =>
    let (files, reply) := arrayCall inum files first
    let (files, replies) := arrayCalls inum files rest
    (files, reply :: replies)

/-- The arrays are the contents of the files. -/
structure Refines (sb : Superblock) (s : State) (inum : Nat → Nat) (files : Nat → List UInt8) :
    Prop where
  inv : Inv sb s
  slots : ∀ k, Open s k → (s.inode k).inum = inum k
  files : ∀ i, Live sb s.disk i → contents sb s.disk i = files i

theorem Refines.file (refines : Refines sb s inum files) {k : Nat} (opened : Open s k) :
    contents sb s.disk (s.inode k).inum = files (inum k) ∧
      (files (inum k)).length = (s.inode k).size := by
  have same := refines.files _ (refines.inv.loaded k opened).1
  rw [refines.slots k opened] at same
  have inumEq := refines.slots k opened
  refine ⟨by rw [inumEq]; exact same, ?_⟩
  rw [← same, contents_length, ← inumEq, refines.inv.size_eq opened]

theorem Stored.allowed {k off : Nat} {bytes : List UInt8} (stored : Stored sb k off bytes s t)
    {later : Call} (allowed : later.Allowed s) : later.Allowed t := by
  have slot : ∀ j, (t.inode j).type = (s.inode j).type ∧ (t.inode j).ref = (s.inode j).ref ∧
      (t.inode j).valid = (s.inode j).valid := by
    intro j
    by_cases same : j = k
    · subst same
      obtain ⟨size, addrs, here⟩ := stored.slot
      rw [here]
      exact ⟨rfl, rfl, rfl⟩
    · rw [stored.slots j same]
      exact ⟨rfl, rfl, rfl⟩
  cases later with
  | readi j off n =>
    simp only [Call.Allowed, Open, (slot _).1, (slot _).2.1, (slot _).2.2] at allowed ⊢
    exact allowed
  | writei j src off n =>
    simp only [Call.Allowed, Open, (slot _).1, (slot _).2.1, (slot _).2.2] at allowed ⊢
    exact allowed
  | endOp => trivial

theorem Stored.refines {k off : Nat} {bytes : List UInt8} (stored : Stored sb k off bytes s t)
    (refines : Refines sb s inum files) (opened : Open s k) :
    Refines sb t inum (update files (inum k) (overlay (files (inum k)) off bytes)) := by
  have slotInum := refines.slots k opened
  refine ⟨stored.inv, ?_, ?_⟩
  · intro j openedJ
    by_cases same : j = k
    · subst same
      obtain ⟨size, addrs, here⟩ := stored.slot
      rw [here]
      exact slotInum
    · unfold Open at openedJ
      rw [stored.slots j same] at openedJ ⊢
      exact refines.slots j openedJ
  · intro i alive
    by_cases mine : i = (s.inode k).inum
    · subst mine
      rw [stored.here, ← slotInum, update_self, (refines.file opened).1, slotInum]
    · rw [stored.others i mine ((stored.live i).mp alive),
        update_of_ne (fun same => mine (same.trans slotInum.symm))]
      exact refines.files i ((stored.live i).mp alive)

theorem call_refines (refines : Refines sb s inum files) {first : Call}
    (allowed : first.Allowed s) :
    Ends Panic.Full (fun r => r.2 = (arrayCall inum files first).2 ∧
      Refines sb r.1 inum (arrayCall inum files first).1 ∧
      ∀ later : Call, later.Allowed s → later.Allowed r.1) (call sb devsw s first) := by
  cases first with
  | readi k off n =>
    obtain ⟨⟨opened, file⟩, offWord, nWord⟩ := allowed
    obtain ⟨same, length⟩ := refines.file opened
    by_cases bad : off > (s.inode k).size ∨ 2 ^ 32 ≤ off + n
    · have fails : readi sb devsw s k off n = .ok (s, none) := by
        unfold readi
        rw [if_neg file, if_pos (by omega)]
      simp only [call, fails, arrayCall, length, if_pos bad]
      exact ⟨rfl, refines, fun _ later => later⟩
    · have reads := readi_eq devsw refines.inv opened file
        (show off ≤ (s.inode k).size by omega) (show off + n < 2 ^ 32 by omega)
      simp only [call, reads, arrayCall, length, if_neg bad, same]
      exact ⟨rfl, refines, fun _ later => later⟩
  | writei k src off n =>
    obtain ⟨⟨opened, file⟩, offWord, nWord⟩ := allowed
    obtain ⟨same, length⟩ := refines.file opened
    by_cases bad : off > (s.inode k).size ∨ 2 ^ 32 ≤ off + n ∨ off + n > MAXFILE * BSIZE
    · have fails : writei sb devsw s k src off n = .ok (s, none) := by
        unfold writei
        rw [if_neg file]
        split
        · rfl
        · rename_i fits
          have small : off + n < 2 ^ 32 := by omega
          rw [Nat.mod_eq_of_lt small, if_pos (by omega)]
      simp only [call, fails, arrayCall, length, if_pos bad]
      exact ⟨rfl, refines, fun _ later => later⟩
    · simp only [call, arrayCall, length, if_neg bad]
      refine (writei_ends refines.inv opened file (by omega) (by omega)).bind ?_
      rintro ⟨t, count⟩ ⟨rfl, stored⟩
      exact ⟨rfl, stored.refines refines opened, fun _ later => stored.allowed later⟩
  | endOp =>
    have disk : (endOp sb s).disk = s.disk := by unfold endOp; split <;> rfl
    have inode : (endOp sb s).inode = s.inode := by unfold endOp; split <;> rfl
    refine ⟨rfl, ⟨refines.inv.congr disk fun j _ => congrFun inode j, ?_, ?_⟩, ?_⟩
    · unfold Open
      rw [inode]
      exact refines.slots
    · rw [disk]
      exact refines.files
    · intro later allowed
      cases later <;> simp only [Call.Allowed, Open, inode] at allowed ⊢ <;> exact allowed

theorem calls_refine (refines : Refines sb s inum files) (list : List Call)
    (allowed : ∀ one ∈ list, one.Allowed s) :
    Ends Panic.Full (fun r => r.2 = (arrayCalls inum files list).2 ∧
      Refines sb r.1 inum (arrayCalls inum files list).1) (calls sb devsw s list) := by
  induction list generalizing s files with
  | nil => exact ⟨rfl, refines⟩
  | cons first rest ih =>
    refine (call_refines refines (allowed first (by simp))).bind ?_
    rintro ⟨t, reply⟩ ⟨same, after, keeps⟩
    refine (ih after fun one member => keeps one (allowed one (by simp [member]))).bind ?_
    rintro ⟨u, replies⟩ ⟨others, last⟩
    dsimp only at same others
    exact ⟨by simp only [arrayCalls, same, others], last⟩

/-- One `writei` in the terms of its caller, and every sequence of calls, unless the disk or the
log is full. -/
theorem files_refine_arrays (inv : Inv sb s) :
    (∀ k src off n, Open s k → (s.inode k).type ≠ T_DEV → off ≤ (s.inode k).size →
      off + n ≤ MAXFILE * BSIZE →
      Ends Panic.Full (fun r => r.2 = some n ∧
          readi sb devsw r.1 k off n = .ok (r.1, some ((List.range n).map src)) ∧
          (∀ i, i < off ∨ off + n ≤ i → (contents sb r.1.disk (s.inode k).inum)[i]? =
            (contents sb s.disk (s.inode k).inum)[i]?) ∧
          (∀ inum, inum ≠ (s.inode k).inum → Live sb s.disk inum →
            contents sb r.1.disk inum = contents sb s.disk inum) ∧
          (r.1.inode k).size = max (s.inode k).size (off + n))
        (writei sb devsw s k src off n)) ∧
    ∀ list : List Call, (∀ one ∈ list, one.Allowed s) → Ends Panic.Full (fun r =>
          r.2 = (arrayCalls (fun k => (s.inode k).inum) (contents sb s.disk) list).2 ∧
          ∀ inum, Live sb r.1.disk inum → contents sb r.1.disk inum =
            (arrayCalls (fun k => (s.inode k).inum) (contents sb s.disk) list).1 inum)
        (calls sb devsw s list) := by
  refine ⟨?_, ?_⟩
  · intro k src off n opened file offset bound
    refine (writei_ends inv opened file offset bound).mono ?_
    rintro ⟨t, count⟩ ⟨rfl, stored⟩
    have length := offset_le_length inv opened offset
    have limit : MAXFILE * BSIZE < 2 ^ 32 := by decide
    obtain ⟨size, addrs, slot⟩ := stored.slot
    have openedT : Open t k := by
      unfold Open at opened ⊢
      rw [slot]
      exact opened
    have sizeT : (t.inode k).size = max (s.inode k).size (off + n) := by
      have total := congrArg List.length stored.here
      rw [contents_length, Overlay.length_overlay length, contents_length, length_map,
        length_range, ← inv.size_eq opened] at total
      rw [stored.inv.size_eq openedT, ← total, slot]
    have reads := readi_eq devsw stored.inv openedT (by rw [slot]; exact file)
      (show off ≤ (t.inode k).size by omega) (show off + n < 2 ^ 32 by omega)
    refine ⟨rfl, ?_, ?_, stored.others, sizeT⟩
    · have back := Overlay.take_drop_overlay length ((List.range n).map src)
      rw [length_map, length_range] at back
      rw [reads, show (t.inode k).inum = (s.inode k).inum by rw [slot], stored.here, back]
    · intro i outside
      rw [stored.here, Overlay.getElem?_overlay length, if_neg]
      rw [length_map, length_range]
      omega
  · intro list allowed
    have start : Refines sb s (fun k => (s.inode k).inum) (contents sb s.disk) :=
      ⟨inv, fun _ _ => rfl, fun _ _ => rfl⟩
    exact (calls_refine start list allowed).mono fun r post => ⟨post.1, post.2.files⟩

/-- A disk of eighty blocks: the log as mkfs makes it, and 44 data blocks. -/
def smallSb : Superblock :=
  { size := 80, nblocks := 44, ninodes := 8, nlog := 30, logstart := 2, inodestart := 32,
      bmapstart := 34
    logFirst := by decide, inodesNext := by decide, bitmapNext := by decide, small := by decide }

/-- Inode 1 is an empty file; all data blocks are free. -/
def smallDisk (b : Nat) : Block :=
  if b = 32 then putDinode zero 1 ⟨T_FILE, 0, 0, 1, 0, fun _ => 0⟩
  else if b = 34 then fun k => if k < 4 then 255 else if k = 4 then 15 else 0
  else zero

/-- Slot 0 holds inode 1, the other slots are empty, and a transaction has just begun. -/
def smallState : State :=
  { disk := smallDisk
    inode := fun k =>
      if k = 0 then ⟨⟨T_FILE, 0, 0, 1, 0, fun _ => 0⟩, 1, 1, true⟩
      else ⟨⟨0, 0, 0, 0, 0, fun _ => 0⟩, 0, 0, false⟩
    lh := [] }

theorem smallDisk_roots (root : Root) : diskRoots smallSb smallDisk root = 0 := by
  have zero : ∀ inum < 8, ∀ j < NADDRS, diskRoots smallSb smallDisk (inum, j) = 0 := by
    decide +kernel
  by_cases both : root.1 < 8 ∧ root.2 < NADDRS
  · exact zero root.1 both.1 root.2 both.2
  · exact if_neg fun placed => both ⟨placed.1.1, placed.2⟩

theorem smallState_inv : Inv smallSb smallState := by
  have only : ∀ k, 0 < (smallState.inode k).ref → k = 0 := by
    intro k used
    by_contra other
    simp [smallState, other] at used
  refine ⟨owns_of_empty smallDisk_roots (by decide +kernel), ?_, ?_, ?_⟩
  · intro inum alive bn inside
    have small : ∀ i < 8, (dinode smallSb smallDisk i).size = 0 := by decide +kernel
    rw [show (dinode smallSb smallState.disk inum).size = 0 from small inum alive.1] at inside
    omega
  · rintro k ⟨_, used, _⟩
    obtain rfl := only k used
    exact ⟨by decide +kernel, by decide +kernel, by decide +kernel, by decide +kernel,
      by decide +kernel, by decide +kernel, by decide +kernel⟩
  · intro j _ k _ usedJ usedK _
    rw [only j usedJ, only k usedK]

def noDevices : Devsw := ⟨fun _ => none, fun _ => none⟩

/-- A write over two blocks and a read across their border. -/
def smallCalls : List Call :=
  [.writei 0 (fun i => UInt8.ofNat i) 0 700, .endOp, .readi 0 500 20]

theorem files_refine_arrays_small :
    Inv smallSb smallState ∧ Open smallState 0 ∧ (∀ one ∈ smallCalls, one.Allowed smallState) ∧
      ∃ r, calls smallSb noDevices smallState smallCalls = .ok r ∧ r.2 =
          (arrayCalls (fun k => (smallState.inode k).inum) (contents smallSb smallState.disk)
            smallCalls).2 ∧
        ∀ inum, Live smallSb r.1.disk inum → contents smallSb r.1.disk inum =
          (arrayCalls (fun k => (smallState.inode k).inum) (contents smallSb smallState.disk)
            smallCalls).1 inum := by
  have opened : Open smallState 0 := ⟨by decide, by decide, by decide⟩
  have allowed : ∀ one ∈ smallCalls, one.Allowed smallState := by
    simp only [smallCalls, mem_cons, not_mem_nil, or_false, forall_eq_or_imp, forall_eq,
      Call.Allowed]
    exact ⟨⟨⟨opened, by decide⟩, by decide, by decide⟩, trivial,
      ⟨opened, by decide⟩, by decide, by decide⟩
  have returns : (calls smallSb noDevices smallState smallCalls).toOption.isSome = true := by
    decide +kernel
  obtain ⟨r, returned⟩ := Option.isSome_iff_exists.mp returns
  have ran := toOption_eq_some.mp returned
  have ends : Ends Panic.Full _ (calls smallSb noDevices smallState smallCalls) :=
    (files_refine_arrays smallState_inv).2 smallCalls allowed
  rw [ran] at ends
  exact ⟨smallState_inv, opened, allowed, r, ran, ends⟩

/-- With free blocks left, `writei` of 28 blocks in one transaction fills the log and panics. -/
theorem writei_fills_log :
    Inv smallSb smallState ∧ Open smallState 0 ∧ (smallState.inode 0).type ≠ T_DEV ∧
      0 + 28 * BSIZE ≤ MAXFILE * BSIZE ∧
      writei smallSb noDevices smallState 0 (fun _ => 7) 0 (28 * BSIZE) =
        .error .tooBigTransaction := by
  have outcome : (match writei smallSb noDevices smallState 0 (fun _ => 7) 0 (28 * BSIZE) with
      | .error panic => some panic
      | .ok _ => none) = some .tooBigTransaction := by
    decide +kernel
  refine ⟨smallState_inv, ⟨by decide, by decide, by decide⟩, by decide, by decide, ?_⟩
  split at outcome
  · rename_i panic stops
    cases outcome
    exact stops
  · cases outcome

end Xv6.Fs
