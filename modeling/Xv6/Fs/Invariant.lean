import Xv6.Fs.Write
import Xv6.Lib.Overlay

/- What holds between operations, the contents of a file, and `iupdate` at the end of `writei`. -/
namespace Xv6.Fs

open Bytes Forest List

variable {sb : Superblock} {s t u : State} {k : Nat}

/-- The block at a place, between operations. -/
def fileBlock (sb : Superblock) (disk : Nat → Block) (x : Place Root) : Nat :=
  target (pointer disk) (diskRoots sb disk) x

/-- The bytes of a file. -/
def contents (sb : Superblock) (disk : Nat → Block) (inum : Nat) : List UInt8 :=
  (List.range (dinode sb disk inum).size).map fun i =>
    disk (fileBlock sb disk (place inum (i / BSIZE))) (i % BSIZE)

/-- The slot is in use and holds a loaded inode. -/
def Open (s : State) (k : Nat) : Prop :=
  k < NINODE ∧ 0 < (s.inode k).ref ∧ (s.inode k).valid = true

/-- What holds between operations. A file has all its blocks, and a loaded inode agrees with
its disk inode. -/
structure Inv (sb : Superblock) (s : State) : Prop where
  owns : Owns sb (diskRoots sb s.disk) s.disk
  full : ∀ inum, Live sb s.disk inum → ∀ bn, bn * BSIZE < (dinode sb s.disk inum).size →
    bn < MAXFILE ∧ fileBlock sb s.disk (place inum bn) ≠ 0
  loaded : ∀ k, Open s k → Live sb s.disk (s.inode k).inum ∧
    (s.inode k).toDinode.Same (dinode sb s.disk (s.inode k).inum)
  unique : ∀ j < NINODE, ∀ k < NINODE, 0 < (s.inode j).ref → 0 < (s.inode k).ref →
    (s.inode j).inum = (s.inode k).inum → j = k

theorem liveRoots_of_loaded (live : Live sb s.disk (s.inode k).inum)
    (same : (s.inode k).toDinode.Same (dinode sb s.disk (s.inode k).inum)) :
    liveRoots sb s k = diskRoots sb s.disk := by
  funext root
  unfold liveRoots
  split
  · rename_i mine
    unfold diskRoots
    rw [mine]
    by_cases inside : root.2 < NADDRS
    · rw [if_pos inside, if_pos ⟨live, inside⟩]
      exact same.addrs _ inside
    · rw [if_neg inside, if_neg (fun both => inside both.2)]
  · rfl

section

variable (inv : Inv sb s) (opened : Open s k)
include inv opened

theorem Inv.liveRoots_eq : liveRoots sb s k = diskRoots sb s.disk :=
  liveRoots_of_loaded (inv.loaded k opened).1 (inv.loaded k opened).2

theorem Inv.blockAt_eq (x : Place Root) : blockAt sb s k x = fileBlock sb s.disk x := by
  unfold blockAt fileBlock
  rw [inv.liveRoots_eq opened]

theorem Inv.liveOwns : Owns sb (liveRoots sb s k) s.disk := by
  rw [inv.liveRoots_eq opened]
  exact inv.owns

theorem Inv.size_eq :
    (s.inode k).size = (dinode sb s.disk (s.inode k).inum).size := (inv.loaded k opened).2.size

theorem Inv.mapped {i : Nat} (inside : i < (s.inode k).size) :
    i / BSIZE < MAXFILE ∧ Mapped sb s k (i / BSIZE) := by
  rw [inv.size_eq opened] at inside
  have start : i / BSIZE * BSIZE < (dinode sb s.disk (s.inode k).inum).size :=
    Nat.lt_of_le_of_lt (Nat.div_mul_le_self _ _) inside
  have found := inv.full _ (inv.loaded k opened).1 _ start
  refine ⟨found.1, ?_⟩
  unfold Mapped
  rw [inv.blockAt_eq opened]
  exact found.2

theorem Inv.size_le : (s.inode k).size ≤ MAXFILE * BSIZE := by
  by_contra large
  have inside : MAXFILE * BSIZE < (s.inode k).size := by omega
  have bound := (inv.mapped opened inside).1
  rw [Nat.mul_div_cancel _ (by decide)] at bound
  exact Nat.lt_irrefl _ bound

end

theorem Inv.congr (inv : Inv sb s) (disk : t.disk = s.disk)
    (used : ∀ j, 0 < (t.inode j).ref → t.inode j = s.inode j) : Inv sb t := by
  constructor
  · rw [disk]
    exact inv.owns
  · rw [disk]
    exact inv.full
  · intro j opened
    have slot := used j opened.2.1
    unfold Open at opened
    rw [slot] at opened ⊢
    rw [disk]
    exact inv.loaded j opened
  · intro i insideI j insideJ refI refJ same
    have slotI := used i refI
    have slotJ := used j refJ
    rw [slotI] at refI same
    rw [slotJ] at refJ same
    exact inv.unique i insideI j insideJ refI refJ same

/-- One file and the slot of its inode are replaced. The other files and slots stay. -/
theorem Inv.replace {inum : Nat} (inv : Inv sb s) (owns : Owns sb (diskRoots sb t.disk) t.disk)
    (dinodes : ∀ other < sb.ninodes, other ≠ inum →
    (dinode sb t.disk other).Same (dinode sb s.disk other)) (blocks : ∀ x, shape.Valid x →
    x.1.1 ≠ inum → fileBlock sb t.disk x = fileBlock sb s.disk x)
    (full : Live sb t.disk inum → ∀ bn, bn * BSIZE < (dinode sb t.disk inum).size →
      bn < MAXFILE ∧ fileBlock sb t.disk (place inum bn) ≠ 0)
    (refs : ∀ j, 0 < (t.inode j).ref → 0 < (s.inode j).ref ∧ (t.inode j).inum = (s.inode j).inum)
    (mine : ∀ j, Open t j → (t.inode j).inum = inum → Live sb t.disk inum ∧
      (t.inode j).toDinode.Same (dinode sb t.disk inum))
    (others : ∀ j, (t.inode j).inum ≠ inum → t.inode j = s.inode j) : Inv sb t := by
  have live : ∀ other, other ≠ inum → (Live sb t.disk other ↔ Live sb s.disk other) := by
    intro other apart
    apply and_congr_right
    intro inside
    rw [(dinodes other inside apart).type]
  constructor
  · exact owns
  · intro other alive bn inside
    by_cases same : other = inum
    · subst same
      exact full alive bn inside
    · rw [(dinodes other alive.1 same).size] at inside
      obtain ⟨block, present⟩ := inv.full other ((live other same).mp alive) bn inside
      rw [blocks _ (place_valid other block).1 (by rw [place_inum]; exact same)]
      exact ⟨block, present⟩
  · intro j opened
    by_cases same : (t.inode j).inum = inum
    · rw [same]
      exact mine j opened same
    · have slot := others j same
      unfold Open at opened
      rw [slot] at opened same ⊢
      obtain ⟨alive, agrees⟩ := inv.loaded j opened
      exact ⟨(live _ same).mpr alive, agrees.trans (dinodes _ alive.1 same).symm⟩
  · intro i insideI j insideJ refI refJ same
    obtain ⟨usedI, inumI⟩ := refs i refI
    obtain ⟨usedJ, inumJ⟩ := refs j refJ
    exact inv.unique i insideI j insideJ usedI usedJ (inumI.symm.trans (same.trans inumJ))

theorem contents_length (sb : Superblock) (disk : Nat → Block) (inum : Nat) :
    (contents sb disk inum).length = (dinode sb disk inum).size := by
  simp only [contents, length_map, length_range]

theorem offset_le_length {off : Nat} (inv : Inv sb s) (opened : Open s k)
    (offset : off ≤ (s.inode k).size) :
    off ≤ (contents sb s.disk (s.inode k).inum).length := by
  rw [contents_length, ← inv.size_eq opened]
  exact offset

theorem contents_getElem? (sb : Superblock) (disk : Nat → Block) (inum i : Nat) :
    (contents sb disk inum)[i]? = if i < (dinode sb disk inum).size then
      some (disk (fileBlock sb disk (place inum (i / BSIZE))) (i % BSIZE)) else none := by
  unfold contents
  rw [getElem?_map]
  by_cases inside : i < (dinode sb disk inum).size
  · rw [getElem?_range inside, if_pos inside]
    rfl
  · rw [getElem?_eq_none (by rw [length_range]; omega), if_neg inside]
    rfl

section Update

/-- The trees of the stored inode are replaced. -/
theorem diskRoots_storeInode {inum : Nat} {dip : Dinode} (inside : inum < sb.ninodes)
    (fits : dip.Fits) (typed : dip.type ≠ 0 ∨ ∀ j < NADDRS, dip.addrs j = 0) (root : Root) :
    diskRoots sb (storeInode sb u inum dip).disk root =
      if root.1 = inum then if root.2 < NADDRS then dip.addrs root.2 else 0
      else diskRoots sb u.disk root := by
  have self := dinode_storeInode_self sb u inum fits
  by_cases mine : root.1 = inum
  · unfold diskRoots
    rw [if_pos mine, mine]
    by_cases slot : root.2 < NADDRS
    · rw [if_pos slot]
      rcases typed with nonzero | zero
      · have live : Live sb (storeInode sb u inum dip).disk inum :=
          ⟨inside, fun null => nonzero (self.type.symm.trans null)⟩
        rw [if_pos ⟨live, slot⟩]
        exact self.addrs _ slot
      · rw [zero _ slot]
        split
        · exact (self.addrs _ slot).trans (zero _ slot)
        · rfl
    · rw [if_neg slot, if_neg (fun both => slot both.2)]
  · have other := dinode_storeInode_ne sb u dip mine
    unfold diskRoots
    rw [if_neg mine]
    have live : Live sb (storeInode sb u inum dip).disk root.1 ↔ Live sb u.disk root.1 := by
      unfold Live
      rw [other.type]
    by_cases both : Live sb u.disk root.1 ∧ root.2 < NADDRS
    · rw [if_pos both, if_pos ⟨live.mpr both.1, both.2⟩]
      exact other.addrs _ both.2
    · rw [if_neg both, if_neg (fun some => both ⟨live.mp some.1, some.2⟩)]

/-- The inode of slot `k` goes to the disk; its trees are then those in memory. -/
theorem diskRoots_iupdate (inside : (u.inode k).inum < sb.ninodes) (fits : (u.inode k).Fits)
    (typed : (u.inode k).type ≠ 0 ∨ ∀ j < NADDRS, (u.inode k).addrs j = 0) :
    diskRoots sb (storeInode sb u (u.inode k).inum (u.inode k).toDinode).disk =
      liveRoots sb u k := by
  funext root
  exact diskRoots_storeInode inside fits typed root

/-- Storing a disk inode moves no block and leaves the free map alone. -/
theorem target_storeInode {roots : Root → Nat} (owns : Owns sb roots u.disk) {inum : Nat}
    (inside : inum < sb.ninodes) (dip : Dinode) {x : Place Root} (valid : shape.Valid x) :
    target (pointer (storeInode sb u inum dip).disk) roots x = target (pointer u.disk) roots x := by
  refine target_congr (fun y validY _ present i _ => ?_) valid
  have range := owns.data y validY present
  have order := bmapstart_lt sb
  simp only [pointer]
  rw [storeInode_others u inside dip (by omega)]

theorem inUse_storeInode {inum : Nat} (inside : inum < sb.ninodes) (dip : Dinode) {c : Nat}
    (bound : c < sb.size) : inUse sb (storeInode sb u inum dip).disk c = inUse sb u.disk c :=
  inUse_congr (fun _ lower _ => storeInode_others u inside dip lower) bound

end Update

end Xv6.Fs
