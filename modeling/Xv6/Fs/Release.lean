import Mathlib.Data.Finset.Card
import Xv6.Fs.Ownership

/- Taking back the blocks of a file: `itrunc` frees what `writei` has allocated, and what the
transaction that does it logs. -/
namespace Xv6.Fs

open Function Bytes Outcome Forest Option List

variable {sb : Superblock} {devsw : Devsw} {s t u : State} {k : Nat}

/-- A data block or an index block of the inode in slot `k`. -/
def BlockAt (sb : Superblock) (s : State) (k c : Nat) : Prop :=
  c ≠ 0 ∧ ∃ x, shape.Valid x ∧ x.1.1 = (s.inode k).inum ∧ blockAt sb s k x = c

/-- The inode has given its blocks back and no others. -/
structure Released (sb : Superblock) (s : State) (k : Nat) (t : State) : Prop where
  owned : ∀ c, BlockAt sb s k c → c < sb.size ∧ inUse sb s.disk c = true
  marks : ∀ c < sb.size, inUse sb t.disk c = true ↔ inUse sb s.disk c = true ∧ ¬ BlockAt sb s k c
  memory : (t.inode k).size = 0 ∧ ∀ j < NADDRS, (t.inode k).addrs j = 0
  disk : (dinode sb t.disk (s.inode k).inum).size = 0 ∧
    ∀ j < NADDRS, (dinode sb t.disk (s.inode k).inum).addrs j = 0

theorem itrunc_released (owns : Owns sb (liveRoots sb s k) s.disk)
    (inside : (s.inode k).inum < sb.ninodes) (fits : (s.inode k).Fits) :
    Ends (· = .tooBigTransaction) (Released sb s k) (itrunc sb s k) := by
  refine (itrunc_ends (writes_any sb) (fun _ _ _ => trivial) owns (fun _ _ => trivial) trivial
    trivial).mono ?_
  rintro t ⟨⟨u, truncated, _, rfl⟩, _⟩
  have self := dinode_storeInode_self sb (u.setInode k (emptySlot (s.inode k) (s.inode k).type))
    (s.inode k).inum (emptySlot_fits fits fits.type)
  refine ⟨?_, fun c bound => ?_, ?_, self.size, fun j small => ?_⟩
  · rintro c ⟨nonzero, x, valid, _, rfl⟩
    exact ⟨(owns.data x valid nonzero).2, owns.marked x valid nonzero⟩
  · rw [inUse_storeInode inside _ bound, setInode_disk, truncated.frees.marks c bound, trees_iff sb]
    rfl
  · rw [storeInode_inode, setInode_inode, update_self]
    exact ⟨rfl, fun j small => emptySlot_addrs _ _ small⟩
  · exact (self.addrs j small).trans (emptySlot_addrs _ _ small)

/-- A call of `writei` for slot `k`, or the end of the transaction around it. -/
def Event.Writes (k : Nat) : Event → Prop
  | .writei slot _ _ _ => slot = k
  | .endOp => True
  | _ => False

/-- Since `s` only the file in slot `k` has got other blocks. -/
structure Grown (sb : Superblock) (k : Nat) (s t : State) : Prop where
  sound : Sound sb t
  opened : Open t k
  inum : (t.inode k).inum = (s.inode k).inum
  others : ∀ x, shape.Valid x → x.1.1 ≠ (s.inode k).inum →
    fileBlock sb t.disk x = fileBlock sb s.disk x

theorem grown_step {event : Event} (grown : Grown sb k s t) (writes : event.Writes k)
    (taken : step sb devsw t event = some u) : Grown sb k s u := by
  have sound := sound_step grown.sound taken
  cases event with
  | writei slot src off n =>
    obtain rfl : slot = k := writes
    obtain ⟨⟨opened, offWord, word⟩, ran⟩ := ite_none_right_eq_some.mp taken
    obtain ⟨r, ran⟩ := toOption_map_fst_eq_some.mp ran
    rcases writei_eq_ok grown.sound.inv opened offWord word ran with rfl | ⟨v, done⟩
    · exact grown
    · obtain ⟨inum, ref, valid⟩ := done.slot_fields slot
      refine ⟨sound, ⟨opened.1, ref ▸ opened.2.1, valid.trans opened.2.2⟩, inum.trans grown.inum,
        ?_⟩
      intro x validX other
      rw [done.foreign_block validX (grown.inum ▸ other), grown.others x validX other]
  | endOp =>
    cases taken
    have same : (endOp sb t).disk = t.disk ∧ (endOp sb t).inode = t.inode := by
      unfold endOp
      split
      · exact ⟨rfl, rfl⟩
      · exact ⟨rfl, rfl⟩
    refine ⟨sound, ?_, ?_, ?_⟩
    · unfold Open
      rw [same.2]
      exact grown.opened
    · rw [same.2]
      exact grown.inum
    · rw [same.1]
      exact grown.others
  | _ => exact writes.elim

/-- The free map after `itrunc` of a file that had no blocks in `s`. -/
theorem Grown.emptied_marks (grown : Grown sb k s t) (sound : Sound sb s) (opened : Open s k)
    (new : ∀ j < NADDRS, (s.inode k).addrs j = 0) (ran : itrunc sb t k = .ok u) {c : Nat}
    (inside : c < sb.size) : inUse sb u.disk c = inUse sb s.disk c := by
  have blocks : ∀ x, shape.Valid x → fileBlock sb u.disk x = fileBlock sb s.disk x := by
    intro x valid
    rw [(itrunc_emptied grown.sound.inv grown.opened ran).1.blocks grown.sound.inv.owns valid,
      grown.inum]
    split
    · rename_i mine
      rw [← sound.inv.blockAt_eq opened, blockAt, target, liveRoots, if_pos mine]
      split
      · rename_i small
        rw [new _ small, descend_null]
      · rw [descend_null]
    · rename_i other
      exact grown.others x valid other
  rw [Bool.eq_iff_iff, (sound_itrunc grown.sound grown.opened ran).accounted.bitmap c inside,
    sound.accounted.bitmap c inside]
  refine or_congr_right (exists_congr fun x => and_congr_right fun valid => ?_)
  rw [blocks x valid]

/-- `itrunc` clears the bits of exactly the blocks of the inode, which it all finds set, and leaves
no address and no size. After any writes to a new file it makes the free map what it was before
them. -/
theorem itrunc_undoes_growth (sb : Superblock) (devsw : Devsw) :
    (∀ s k, Owns sb (liveRoots sb s k) s.disk → (s.inode k).inum < sb.ninodes → (s.inode k).Fits →
      Ends (· = .tooBigTransaction) (Released sb s k) (itrunc sb s k)) ∧
    ∀ s k, Sound sb s → Open s k → (∀ j < NADDRS, (s.inode k).addrs j = 0) → ∀ events t,
      Run.Steps (step sb devsw) (fun _ event => event.Writes k) s events →
      Run.exec (step sb devsw) s events = some t →
      Ends (· = .tooBigTransaction)
        (fun u => ∀ c < sb.size, inUse sb u.disk c = inUse sb s.disk c) (itrunc sb t k) := by
  refine ⟨fun s k => itrunc_released, fun s k sound opened new events t writes run => ?_⟩
  have grown : Grown sb k s t :=
    Run.exec_invariant (Grown sb k s) (fun _ _ _ kept writes taken => grown_step kept writes taken)
      ⟨sound, opened, rfl, fun _ _ _ => rfl⟩ writes run
  have inv := grown.sound.inv
  have ends := itrunc_released (inv.liveOwns grown.opened) (inv.loaded k grown.opened).1.1
    (inv.fits grown.opened)
  cases outcome : itrunc sb t k with
  | error panic =>
    rw [outcome] at ends
    exact ends
  | ok u => exact fun c inside => grown.emptied_marks sound opened new outcome inside

/-- Two writes to the empty file of the small disk, in two transactions. -/
def smallWrites : List Event :=
  [.writei 0 (fun i => UInt8.ofNat i) 0 700, .endOp, .writei 0 (fun _ => 7) 700 5000, .endOp]

theorem itrunc_undoes_small_writes :
    Ends (· = .tooBigTransaction) (Released smallSb smallState 0) (itrunc smallSb smallState 0) ∧
      ∃ t u, Run.exec (step smallSb noDevices) smallState smallWrites = some t ∧
        itrunc smallSb t 0 = .ok u ∧
        ∀ c < smallSb.size, inUse smallSb u.disk c = inUse smallSb smallState.disk c := by
  have opened : Open smallState 0 := ⟨by decide, by decide, by decide⟩
  have inv := smallState_inv
  obtain ⟨first, second⟩ := itrunc_undoes_growth smallSb noDevices
  have returns : ((Run.exec (step smallSb noDevices) smallState smallWrites).bind fun t =>
      (itrunc smallSb t 0).toOption).isSome = true := by decide +kernel
  obtain ⟨u, found⟩ := isSome_iff_exists.mp returns
  obtain ⟨t, run, returned⟩ := bind_eq_some_iff.mp found
  have returned := toOption_eq_some.mp returned
  refine ⟨first _ _ (inv.liveOwns opened) (inv.loaded 0 opened).1.1 (inv.fits opened), t, u,
      run, returned, ?_⟩
  refine (second _ _ smallState_sound opened (fun _ _ => rfl) smallWrites t ?_ run).of_ok returned
  exact ⟨rfl, fun _ _ => ⟨trivial, fun _ _ => ⟨rfl, fun _ _ => ⟨trivial, fun _ _ => trivial⟩⟩⟩⟩

section Transaction

open Classical in
/-- What the transaction has logged once `iput` has freed the file in slot `k`: the blocks before,
the block of the inode, and the blocks of the free map with a bit of the file. -/
noncomputable def touched (sb : Superblock) (s : State) (k : Nat) : Finset Nat :=
  s.lh.toFinset ∪ insert (iblock sb (s.inode k).inum)
    (((Finset.range sb.size).filter (BlockAt sb s k)).image (bblock sb))

theorem mem_touched (owns : Owns sb (liveRoots sb s k) s.disk) {b : Nat} : b ∈ touched sb s k ↔
    b ∈ s.lh ∨ b = iblock sb (s.inode k).inum ∨ ∃ c, BlockAt sb s k c ∧ bblock sb c = b := by
  simp only [touched, Finset.mem_union, List.mem_toFinset, Finset.mem_insert, Finset.mem_image,
    Finset.mem_filter, Finset.mem_range]
  refine or_congr_right (or_congr_right (exists_congr fun c => and_congr_left fun _ => ?_))
  refine and_iff_right_of_imp ?_
  rintro ⟨nonzero, x, valid, _, rfl⟩
  exact (owns.data x valid nonzero).2

/-- The log has each block once and none but those in `blocks`. -/
def Logged (blocks : Finset Nat) (v : State) : Prop := v.lh.Nodup ∧ ∀ b ∈ v.lh, b ∈ blocks

theorem Logged.length_le {blocks : Finset Nat} (logged : Logged blocks s) :
    s.lh.length ≤ blocks.card := by
  rw [← toFinset_card_of_nodup logged.1]
  exact Finset.card_le_card fun b member => logged.2 b (List.mem_toFinset.mp member)

theorem Logged.setInode {blocks : Finset Nat} (logged : Logged blocks s) (k : Nat) (ip : Inode) :
    Logged blocks (s.setInode k ip) := logged

theorem writes_logged (log : MAXOPBLOCKS + 1 < sb.nlog) (blocks : Finset Nat) :
    Writes sb (fun _ => MAXOPBLOCKS < blocks.card) (Logged blocks) (· ∈ blocks) := by
  intro v b data logged member
  have bound := logged.length_le
  unfold State.logWrite
  refine .ite (fun full => ?_) fun _ => ⟨rfl, ?_, fun c found => ?_⟩
  · change MAXOPBLOCKS < blocks.card
    unfold LOGSIZE at full
    unfold MAXOPBLOCKS at *
    omega
  · unfold State.store
    dsimp only
    split
    · exact logged.1
    · rename_i absent
      exact logged.1.append (nodup_singleton b) (by simpa using absent)
  · exact ((mem_store_lh data).mp found).elim (logged.2 c) fun same => same ▸ member

/-- The log after `iput` has freed the file; it can only be full before if it then has too many
blocks. -/
theorem iput_logs (owns : Owns sb (liveRoots sb s k) s.disk)
    (last : (s.inode k).valid ∧ (s.inode k).nlink = 0 ∧ (s.inode k).ref = 1) (nodup : s.lh.Nodup)
    (log : MAXOPBLOCKS + 1 < sb.nlog) :
    Ends (fun _ => MAXOPBLOCKS < (touched sb s k).card)
      (fun t => t.lh.Nodup ∧ ∀ b, b ∈ t.lh ↔ b ∈ touched sb s k) (iput sb s k) := by
  have writes := writes_logged log (touched sb s k)
  have own : iblock sb (s.inode k).inum ∈ touched sb s k := (mem_touched owns).mpr (.inr (.inl rfl))
  unfold iput
  rw [if_pos last]
  refine (itrunc_ends writes (fun _ ip logged => logged.setInode k ip) owns (fun c tree => ?_)
    ⟨nodup, fun b member => (mem_touched owns).mpr (.inl member)⟩ own).bind fun t post => ?_
  · exact (mem_touched owns).mpr (.inr (.inr ⟨c, (trees_iff sb s k c).mp tree, rfl⟩))
  obtain ⟨⟨u, _, freed, rfl⟩, logged⟩ := post
  unfold iupdate putInode
  simp only [storeInode_inode, setInode_inode, update_self]
  refine (writes _ _ _ (logged.setInode k _) own).bind ?_
  rintro t ⟨same, logged⟩
  refine ⟨logged.1, fun b => ⟨logged.2 b, fun member => ?_⟩⟩
  show b ∈ t.lh
  rw [same, mem_store_lh, setInode_lh, storeInode, mem_store_lh, setInode_lh, freed.lh]
  rw [mem_touched owns] at member
  left
  rcases member with before | same | ⟨c, own, same⟩
  · exact .inl (.inl before)
  · exact .inr same
  · exact .inl (.inr ⟨c, (trees_iff sb s k c).mpr own, same⟩)

/-- Freeing a file fits into one operation exactly when the blocks of the free map with its bits,
the block of its inode and what the operation has logged before are few enough. -/
theorem delete_fits_iff (owns : Owns sb (liveRoots sb s k) s.disk)
    (last : (s.inode k).valid ∧ (s.inode k).nlink = 0 ∧ (s.inode k).ref = 1) (nodup : s.lh.Nodup)
    (log : MAXOPBLOCKS + 1 < sb.nlog) :
    (∃ t, iput sb s k = .ok t ∧ t.lh.length ≤ MAXOPBLOCKS) ↔
      (touched sb s k).card ≤ MAXOPBLOCKS := by
  have ends := iput_logs owns last nodup log
  constructor
  · rintro ⟨t, returned, few⟩
    obtain ⟨once, members⟩ := ends.of_ok returned
    have all : touched sb s k = t.lh.toFinset := by
      ext b
      rw [List.mem_toFinset, members b]
    rw [all, toFinset_card_of_nodup once]
    exact few
  · intro few
    cases outcome : iput sb s k with
    | error panic =>
      rw [outcome] at ends
      exact absurd few (Nat.not_le_of_lt ends)
    | ok t =>
      obtain ⟨once, members⟩ := ends.of_ok outcome
      have logged : Logged (touched sb s k) t := ⟨once, fun b => (members b).mp⟩
      exact ⟨t, rfl, logged.length_le.trans few⟩

/-- A new file with two blocks is dropped before it gets a link. -/
theorem delete_fits_small : ∃ s, Run.exec (step smallSb noDevices) smallCold
      [.ialloc T_FILE, .ilock 0, .writei 0 (fun _ => 7) 0 700] = some s ∧
    Owns smallSb (liveRoots smallSb s 0) s.disk ∧
    ((s.inode 0).valid ∧ (s.inode 0).nlink = 0 ∧ (s.inode 0).ref = 1) ∧ s.lh.Nodup ∧
    MAXOPBLOCKS + 1 < smallSb.nlog ∧ (touched smallSb s 0).card ≤ MAXOPBLOCKS := by
  have outcome : (Run.exec (step smallSb noDevices) smallCold
      [.ialloc T_FILE, .ilock 0, .writei 0 (fun _ => 7) 0 700]).map (fun s => decide (
        Open s 0 ∧ ((s.inode 0).valid ∧ (s.inode 0).nlink = 0 ∧ (s.inode 0).ref = 1) ∧ s.lh.Nodup ∧
        (iput smallSb s 0).toOption.map (fun t => t.lh.length) = some 4)) =
          some true := by decide +kernel
  obtain ⟨s, run, facts⟩ := map_eq_some_iff.mp outcome
  obtain ⟨opened, last, nodup, length⟩ := of_decide_eq_true facts
  have owns := (sound_exec smallDisk_accounted (fun _ _ => rfl) run).inv.liveOwns opened
  refine ⟨s, run, owns, last, nodup, by decide, (delete_fits_iff owns last nodup (by decide)).mp ?_⟩
  obtain ⟨t, returned, length⟩ := map_eq_some_iff.mp length
  exact ⟨t, toOption_eq_some.mp returned, Nat.le_trans (Nat.le_of_eq length) (by decide)⟩

end Transaction

/-- The superblock that mkfs writes. -/
def wideSb : Superblock :=
  { size := 40000, nblocks := 39932, ninodes := 200, nlog := LOGSIZE, logstart := 2, inodestart :=
      32, bmapstart := 58
    logFirst := by decide, inodesNext := by decide, bitmapNext := by decide, small := by decide }

/-- Inode 1 has ten blocks, one for each block of the free map, and no link any more. -/
def wideDisk (b : Nat) : Block :=
  if b = 32 then putDinode zero 1 ⟨T_FILE, 0, 0, 0, 5120, fun j => if j < 10 then 4096 * j + 2000
      else 0⟩
  else if b < 58 ∨ 68 ≤ b then zero
  else setBit (if b = 58 then fun k => if k < 8 then 255 else if k = 8 then 15 else 0
      else zero) 2000

theorem wide_root (root : Root) : diskRoots wideSb wideDisk root =
    if root.1 = 1 ∧ root.2 < 10 then 4096 * root.2 + 2000 else 0 := by
  have all : ∀ inum < 200, ∀ j < NADDRS, diskRoots wideSb wideDisk (inum, j) =
      if inum = 1 ∧ j < 10 then 4096 * j + 2000 else 0 := by decide +kernel
  by_cases both : root.1 < 200 ∧ root.2 < NADDRS
  · exact all _ both.1 _ both.2
  · rw [if_neg (fun own => both ⟨by omega, Nat.lt_of_lt_of_le own.2 (by decide)⟩)]
    exact if_neg fun placed => both ⟨placed.1.1, placed.2⟩

theorem wide_direct {j : Nat} (small : j < 10) :
    fileBlock wideSb wideDisk ((1, j), []) = 4096 * j + 2000 := by
  rw [fileBlock, target, wide_root, if_pos ⟨rfl, small⟩, descend_nil]

theorem wide_place {x : Place Root} (valid : shape.Valid x)
    (present : fileBlock wideSb wideDisk x ≠ 0) :
    ∃ j < 10, x = ((1, j), []) := by
  obtain ⟨⟨inum, j⟩, path⟩ := x
  rw [fileBlock, target, wide_root] at present
  split at present
  · rename_i own
    have short := valid.1
    simp only [shape, NDIRECT] at short own
    obtain rfl := own.1
    obtain rfl := eq_nil_of_length_eq_zero (show path.length = 0 by omega)
    exact ⟨j, own.2, rfl⟩
  · rw [descend_null] at present
    exact absurd rfl present

theorem wide_marks {c : Nat} (inside : c < 40000) :
    inUse wideSb wideDisk c = true ↔ c < 68 ∨ c % 4096 = 2000 := by
  have metadata : ∀ b, getBit (fun k => if k < 8 then 255 else if k = 8 then 15 else 0) b =
      decide (b < 68) := by
    intro b
    by_cases low : b < 72
    · have first : ∀ b < 72, getBit (fun k => if k < 8 then 255 else if k = 8 then 15 else 0) b =
          decide (b < 68) := by decide +kernel
      exact first b low
    · rw [decide_eq_false (by omega), getBit, if_neg (by omega), if_neg (by omega)]
      simp
  have block : wideDisk (bblock wideSb c) = setBit (if c / 4096 = 0 then
      fun k => if k < 8 then 255 else if k = 8 then 15 else 0 else zero) 2000 := by
    have isBlock : bblock wideSb c = c / 4096 + 58 := rfl
    rw [isBlock, wideDisk, if_neg (by omega), if_neg (by omega)]
    simp only [Nat.add_eq_right]
  rw [inUse, block, getBit_setBit, Bool.or_eq_true, decide_eq_true_iff]
  change c % 4096 = 2000 ∨ getBit _ (c % 4096) = true ↔ _
  by_cases first : c / 4096 = 0
  · rw [if_pos first, metadata, decide_eq_true_iff]
    omega
  · have none : getBit zero (c % 4096) = false := by
      simp [getBit, zero]
    rw [if_neg first, none]
    simp only [Bool.false_eq_true, or_false]
    omega

theorem wideDisk_accounted : Accounted wideSb wideDisk := by
  constructor
  · intro x y validX validY present same
    obtain ⟨i, smallI, rfl⟩ := wide_place validX present
    obtain ⟨j, smallJ, rfl⟩ := wide_place validY (same ▸ present)
    rw [wide_direct smallI, wide_direct smallJ] at same
    obtain rfl : i = j := by omega
    rfl
  · intro x valid present
    obtain ⟨j, small, rfl⟩ := wide_place valid present
    rw [wide_direct small]
    simp only [Superblock.dataStart, wideSb]
    omega
  · intro c inside
    rw [wide_marks inside]
    change _ ↔ c < 68 ∨ _
    constructor
    · rintro (low | bit)
      · exact .inl low
      have small : c / 4096 < 10 := by
        have : c < 40000 := inside
        omega
      refine .inr ⟨((1, c / 4096), []), ⟨Nat.zero_le _, by simp⟩, ?_⟩
      rw [wide_direct small]
      omega
    · rintro (low | ⟨x, valid, rfl⟩)
      · exact .inl low
      · by_cases present : fileBlock wideSb wideDisk x = 0
        · exact .inl (by omega)
        · obtain ⟨j, small, rfl⟩ := wide_place valid present
          rw [wide_direct small]
          exact .inr (by omega)
  · intro inum alive bn inside
    have sizes : ∀ i < 200, (dinode wideSb wideDisk i).size = if i = 1 then 5120
      else 0 := by decide +kernel
    rw [sizes inum alive.1] at inside
    split at inside
    · rename_i same
      have small : bn < 10 := by
        unfold BSIZE at inside
        omega
      have direct : place inum bn = ((1, bn), []) := same ▸ if_pos small
      rw [direct, wide_direct small]
      exact ⟨Nat.lt_of_lt_of_le small (by decide), by omega⟩
    · omega

/-- The wide disk after the machine has started. -/
def wideCold : State := { smallCold with disk := wideDisk }

/-- A small file is open, without a link, and its blocks are spread over the disk. Closing it logs
the ten blocks of the free map and the block of the inode. -/
theorem delete_overflows : ∃ s, Run.exec (step wideSb noDevices) wideCold [.iget 1,
      .ilock 0] = some s ∧
    Sound wideSb s ∧ Owns wideSb (liveRoots wideSb s 0) s.disk ∧ Open s 0 ∧
    ((s.inode 0).valid ∧ (s.inode 0).nlink = 0 ∧ (s.inode 0).ref = 1) ∧ s.lh = [] ∧
    MAXOPBLOCKS + 1 < wideSb.nlog ∧ ¬ ∃ t, iput wideSb s 0 = .ok t ∧ t.lh.length ≤ MAXOPBLOCKS := by
  have outcome : (Run.exec (step wideSb noDevices) wideCold [.iget 1, .ilock 0]).map
    (fun s => decide (
      Open s 0 ∧ ((s.inode 0).valid ∧ (s.inode 0).nlink = 0 ∧ (s.inode 0).ref = 1) ∧ s.lh = [] ∧
      (iput wideSb s 0).toOption.map (fun t => t.lh.length) = some 11)) =
        some true := by decide +kernel
  obtain ⟨s, run, facts⟩ := map_eq_some_iff.mp outcome
  obtain ⟨opened, last, empty, length⟩ := of_decide_eq_true facts
  have sound := sound_exec wideDisk_accounted (fun _ _ => rfl) run
  refine ⟨s, run, sound, sound.inv.liveOwns opened, opened, last, empty, by decide, ?_⟩
  rintro ⟨t, returned, few⟩
  rw [returned] at length
  have length : t.lh.length = 11 := Option.some.inj length
  unfold MAXOPBLOCKS at few
  omega

end Xv6.Fs
