import Xv6.Fs.Blocks

/- Disk inodes: reading back what `iupdate` and `ialloc` store, and leaving the others alone. -/
namespace Xv6.Fs

open Bytes Function

variable {sb : Superblock} {s : State} {index other inum : Nat}

/-- The fields fit their types in C. -/
structure Dinode.Fits (dip : Dinode) : Prop where
  type : dip.type < 2 ^ 16
  major : dip.major < 2 ^ 16
  minor : dip.minor < 2 ^ 16
  nlink : dip.nlink < 2 ^ 16
  size : dip.size < 2 ^ 32
  addrs : ∀ j < NADDRS, dip.addrs j < 2 ^ 32

/-- Equal as `struct dinode`s: the array has `NADDRS` entries. -/
structure Dinode.Same (left right : Dinode) : Prop where
  type : left.type = right.type
  major : left.major = right.major
  minor : left.minor = right.minor
  nlink : left.nlink = right.nlink
  size : left.size = right.size
  addrs : ∀ j < NADDRS, left.addrs j = right.addrs j

theorem Dinode.Same.symm {left right : Dinode} (same : left.Same right) : right.Same left :=
  ⟨same.type.symm, same.major.symm, same.minor.symm, same.nlink.symm, same.size.symm,
    fun j inside => (same.addrs j inside).symm⟩

theorem Dinode.Same.trans {first second third : Dinode} (left : first.Same second)
    (right : second.Same third) : first.Same third :=
  ⟨left.type.trans right.type, left.major.trans right.major, left.minor.trans right.minor,
    left.nlink.trans right.nlink, left.size.trans right.size,
    fun j inside => (left.addrs j inside).trans (right.addrs j inside)⟩

theorem Dinode.Same.refl (dip : Dinode) : dip.Same dip :=
  ⟨rfl, rfl, rfl, rfl, rfl, fun _ _ => rfl⟩

theorem fits_getDinode (block : Block) (index : Nat) : (getDinode block index).Fits :=
  ⟨getHalf_lt _ _, getHalf_lt _ _, getHalf_lt _ _, getHalf_lt _ _, getWord_lt _ _, fun _ _ =>
      getWord_lt _ _⟩

theorem getDinode_putDinode (block : Block) (index : Nat) {dip : Dinode} (fits : dip.Fits) :
    (getDinode (putDinode block index dip) index).Same dip := by
  refine ⟨?_, ?_, ?_, ?_, ?_, ?_⟩
  · simp (disch := omega) only [getDinode, putDinode, getHalf_setWords, getHalf_setWord,
      getHalf_setHalf_ne, getHalf_setHalf_self _ _ _ fits.type]
  · simp (disch := omega) only [getDinode, putDinode, getHalf_setWords, getHalf_setWord,
      getHalf_setHalf_ne, getHalf_setHalf_self _ _ _ fits.major]
  · simp (disch := omega) only [getDinode, putDinode, getHalf_setWords, getHalf_setWord,
      getHalf_setHalf_ne, getHalf_setHalf_self _ _ _ fits.minor]
  · simp (disch := omega) only [getDinode, putDinode, getHalf_setWords, getHalf_setWord,
      getHalf_setHalf_self _ _ _ fits.nlink]
  · simp (disch := omega) only [getDinode, putDinode, getWord_setWords_outside,
      getWord_setWord_self _ _ _ fits.size]
  · intro j inside
    exact getWord_setWords _ _ _ _ fits.addrs inside

theorem putDinode_outside (block : Block) (index : Nat) (dip : Dinode) {k : Nat}
    (outside : k / 64 ≠ index) : putDinode block index dip k = block k := by
  have type : ¬ k / 2 = 32 * index := by omega
  have halves : ∀ i, 1 ≤ i → i < 4 → ¬ k / 2 = 32 * index + i := by omega
  have size : ¬ k / 4 = 16 * index + 2 := by omega
  rw [putDinode, setWords_outside _ _ _ _ (by simp only [NADDRS, NDIRECT]; omega)]
  simp only [setWord, setHalf, size, type, halves 1 (by omega) (by omega),
    halves 2 (by omega) (by omega), halves 3 (by omega) (by omega), if_false]

theorem getDinode_congr {left right : Block} (same : ∀ k, k / 64 = index → left k = right k) :
    (getDinode left index).Same (getDinode right index) := by
  have half : ∀ i < 4, getHalf left (32 * index + i) = getHalf right (32 * index + i) :=
    fun i bound => getHalf_congr fun k place => same k (by omega)
  have word : ∀ i < 16, getWord left (16 * index + i) = getWord right (16 * index + i) :=
    fun i bound => getWord_congr fun k place => same k (by omega)
  refine ⟨half 0 (by omega), half 1 (by omega), half 2 (by omega), half 3 (by omega),
    word 2 (by omega), fun j inside => ?_⟩
  have place : j + (16 * index + 3) = 16 * index + (j + 3) := by omega
  simp only [getDinode, place]
  exact word (j + 3) (by simp only [NADDRS, NDIRECT] at inside; omega)

theorem getDinode_putDinode_ne (block : Block) (dip : Dinode) (apart : other ≠ index) :
    (getDinode (putDinode block index dip) other).Same (getDinode block other) :=
  getDinode_congr fun _ place => putDinode_outside block index dip (by omega)

theorem dinode_congr {left right : Nat → Block} (inum : Nat)
    (same : left (iblock sb inum) = right (iblock sb inum)) :
    dinode sb left inum = dinode sb right inum := by
  unfold dinode
  rw [same]

theorem fits_dinode (sb : Superblock) (disk : Nat → Block) (inum : Nat) :
    (dinode sb disk inum).Fits := fits_getDinode _ _

/-- The effect of storing a disk inode. -/
def storeInode (sb : Superblock) (s : State) (inum : Nat) (dip : Dinode) : State :=
  s.store (iblock sb inum) (putDinode (s.disk (iblock sb inum)) (inum % IPB) dip)

/-- `iupdate` and `ialloc` store one disk inode. -/
theorem dinode_storeInode_self (sb : Superblock) (s : State) (inum : Nat) {dip : Dinode}
    (fits : dip.Fits) :
    (dinode sb (storeInode sb s inum dip).disk inum).Same dip := by
  rw [dinode, storeInode, store_disk, update_self]
  exact getDinode_putDinode _ _ fits

theorem dinode_storeInode_ne (sb : Superblock) (s : State) (dip : Dinode) (apart : other ≠ inum) :
    (dinode sb (storeInode sb s inum dip).disk other).Same (dinode sb s.disk other) := by
  rw [dinode, dinode, storeInode, store_disk]
  by_cases same : iblock sb other = iblock sb inum
  · rw [same, update_self]
    refine getDinode_putDinode_ne _ _ ?_
    simp only [iblock, IPB, BSIZE] at same ⊢
    omega
  · rw [update_of_ne same]
    exact Dinode.Same.refl _

/-- Disk inodes lie in front of the free map. -/
theorem iblock_lt (sb : Superblock) (inside : inum < sb.ninodes) :
    iblock sb inum < sb.bmapstart := by
  have order := sb.inodesNext
  simp only [iblock, IPB, BSIZE] at order ⊢
  omega

theorem storeInode_others (s : State) (inside : inum < sb.ninodes) (dip : Dinode) {c : Nat}
    (outside : sb.bmapstart ≤ c) : (storeInode sb s inum dip).disk c = s.disk c := by
  have bound := iblock_lt sb inside
  exact update_of_ne (show c ≠ iblock sb inum by omega) _ _

@[simp] theorem storeInode_inode (s : State) (inum : Nat) (dip : Dinode) :
    (storeInode sb s inum dip).inode = s.inode := rfl

end Xv6.Fs
