import Xv6.Fs.Dinode
import Xv6.Lib.Forest

/- The blocks of all files as a forest: each address of an inode is the root of a tree of index
blocks, of depth zero to three, whose leaves are the data blocks. -/
namespace Xv6.Fs

open Bytes Forest List

/-- An inode number and an index of its `addrs`. -/
abbrev Root := Nat × Nat

/-- `addrs[0..NDIRECT)` are data blocks; the last three have one, two and three levels. -/
def shape : Shape Root := ⟨fun root => root.2 - (NDIRECT - 1), NINDIRECT⟩

def pointer (disk : Nat → Block) (b i : Nat) : Nat := getWord (disk b) i

/-- The inode is allocated. -/
def Live (sb : Superblock) (disk : Nat → Block) (inum : Nat) : Prop :=
  inum < sb.ninodes ∧ (dinode sb disk inum).type ≠ 0
deriving Decidable

/-- The roots as the disk has them. -/
def diskRoots (sb : Superblock) (disk : Nat → Block) (root : Root) : Nat :=
  if Live sb disk root.1 ∧ root.2 < NADDRS then (dinode sb disk root.1).addrs root.2
  else 0

/-- The roots while the inode in slot `k` is being changed in memory. -/
def liveRoots (sb : Superblock) (s : State) (k : Nat) (root : Root) : Nat :=
  if root.1 = (s.inode k).inum then if root.2 < NADDRS then (s.inode k).addrs root.2 else 0
  else diskRoots sb s.disk root

/-- Every block of a file is a data block, is marked, and has one place in one file. -/
structure Owns (sb : Superblock) (roots : Root → Nat) (disk : Nat → Block) : Prop where
  exclusive : Exclusive shape (pointer disk) roots
  data : ∀ x, shape.Valid x → target (pointer disk) roots x ≠ 0 →
    sb.dataStart ≤ target (pointer disk) roots x ∧ target (pointer disk) roots x < sb.size
  marked : ∀ x, shape.Valid x → target (pointer disk) roots x ≠ 0 →
    inUse sb disk (target (pointer disk) roots x) = true
  metadata : ∀ c < sb.dataStart, inUse sb disk c = true

theorem Owns.congr {sb : Superblock} {roots after : Root → Nat} {disk new : Nat → Block}
    (owns : Owns sb roots disk)
    (moved : ∀ x, shape.Valid x → target (pointer new) after x = target (pointer disk) roots x)
    (marks : ∀ c < sb.size, inUse sb new c = inUse sb disk c) : Owns sb after new := by
  refine ⟨?_, ?_, ?_, ?_⟩
  · intro x y validX validY present same
    rw [moved x validX] at present same
    rw [moved y validY] at same
    exact owns.exclusive x y validX validY present same
  · intro x valid present
    rw [moved x valid] at present ⊢
    exact owns.data x valid present
  · intro x valid present
    rw [moved x valid] at present ⊢
    rw [marks _ (owns.data x valid present).2]
    exact owns.marked x valid present
  · intro c below
    rw [marks c (Nat.lt_of_lt_of_le below (Nat.sub_le _ _))]
    exact owns.metadata c below

theorem owns_of_empty {sb : Superblock} {roots : Root → Nat} {disk : Nat → Block}
    (empty : ∀ root, roots root = 0) (metadata : ∀ c < sb.dataStart, inUse sb disk c = true) :
    Owns sb roots disk := by
  have null : ∀ x, target (pointer disk) roots x = 0 := by
    intro x
    rw [target, empty, descend_null]
  exact ⟨fun x _ _ _ present => absurd (null x) present, fun x _ present => absurd (null x) present,
    fun x _ present => absurd (null x) present, metadata⟩

/-- The place that `bmap` computes for block `bn` of a file. -/
def place (inum bn : Nat) : Place Root :=
  if bn < NDIRECT then ((inum, bn), [])
  else if bn < NDIRECT + NINDIRECT then ((inum, NDIRECT), [bn - NDIRECT])
  else if bn < NDIRECT + NINDIRECT + NDOUINDIRECT then
    ((inum, NDIRECT + 1),
      [(bn - NDIRECT - NINDIRECT) / NINDIRECT, (bn - NDIRECT - NINDIRECT) % NINDIRECT])
  else
    ((inum, NDIRECT + 2), [(bn - NDIRECT - NINDIRECT - NDOUINDIRECT) / NDOUINDIRECT,
      (bn - NDIRECT - NINDIRECT - NDOUINDIRECT) % NDOUINDIRECT / NINDIRECT,
      (bn - NDIRECT - NINDIRECT - NDOUINDIRECT) % NDOUINDIRECT % NINDIRECT])

theorem place_inum (inum bn : Nat) : (place inum bn).1.1 = inum := by
  unfold place
  split
  · rfl
  · split
    · rfl
    · split <;> rfl

/-- The numbers of index entries as literals, for `omega`. -/
theorem place_cases (inum bn : Nat) :
    (bn < 10 ∧ place inum bn = ((inum, bn), [])) ∨
    (10 ≤ bn ∧ bn < 138 ∧ place inum bn = ((inum, 10), [bn - 10])) ∨
    (138 ≤ bn ∧ bn < 16522 ∧ place inum bn = ((inum, 11), [(bn - 138) / 128, (bn - 138) % 128])) ∨
    (16522 ≤ bn ∧ place inum bn = ((inum, 12),
      [(bn - 16522) / 16384, (bn - 16522) % 16384 / 128, (bn - 16522) % 16384 % 128])) := by
  unfold place
  simp only [NDIRECT, NINDIRECT, NDOUINDIRECT, BSIZE, Nat.sub_sub, Nat.reduceDiv, Nat.reduceMul,
    Nat.reduceAdd]
  split
  · exact .inl ⟨by assumption, rfl⟩
  · split
    · exact .inr (.inl ⟨by omega, by assumption, rfl⟩)
    · split
      · exact .inr (.inr (.inl ⟨by omega, by assumption, rfl⟩))
      · exact .inr (.inr (.inr ⟨by omega, rfl⟩))

theorem maxfile_eq : MAXFILE = 2113674 := rfl

theorem place_valid (inum : Nat) {bn : Nat} (inside : bn < MAXFILE) :
    shape.Valid (place inum bn) ∧
      (place inum bn).2.length = shape.depth (place inum bn).1 ∧ (place inum bn).1.2 < NADDRS := by
  rw [maxfile_eq] at inside
  rcases place_cases inum bn with ⟨_, same⟩ | ⟨_, _, same⟩ | ⟨_, _, same⟩ | ⟨_, same⟩ <;> rw [same]
  · refine ⟨⟨by simp, by simp⟩, ?_, ?_⟩ <;> simp only [shape, NADDRS, NDIRECT, length_nil] <;> omega
  · refine ⟨⟨by simp [shape], ?_⟩, by simp [shape], by simp [NADDRS]⟩
    simp only [shape, mem_singleton, forall_eq, NINDIRECT, BSIZE]
    omega
  · refine ⟨⟨by simp [shape], ?_⟩, by simp [shape], by simp [NADDRS]⟩
    simp only [shape, mem_cons, not_mem_nil, or_false, forall_eq_or_imp, forall_eq,
      NINDIRECT, BSIZE]
    omega
  · refine ⟨⟨by simp [shape], ?_⟩, by simp [shape], by simp [NADDRS]⟩
    simp only [shape, mem_cons, not_mem_nil, or_false, forall_eq_or_imp, forall_eq,
      NINDIRECT, BSIZE]
    omega

/-- Different blocks of the files have different places. -/
theorem place_inj {inum other bn bm : Nat} (inside : bn < MAXFILE) (insideM : bm < MAXFILE)
    (same : place inum bn = place other bm) : inum = other ∧ bn = bm := by
  rw [maxfile_eq] at inside insideM
  rcases place_cases inum bn with ⟨_, eq⟩ | ⟨_, _, eq⟩ | ⟨_, _, eq⟩ | ⟨_, eq⟩ <;>
    rcases place_cases other bm with ⟨_, eqM⟩ | ⟨_, _, eqM⟩ | ⟨_, _, eqM⟩ | ⟨_, eqM⟩ <;>
    rw [eq, eqM] at same <;>
    simp only [Prod.mk.injEq, List.cons.injEq, and_true, reduceCtorEq, and_false] at same <;>
    omega

end Xv6.Fs
