import Xv6.Fs.Model
import Xv6.Lib.Outcome

/- The block allocator: what `balloc` and `bfree` do to the free map and to the other blocks. -/
namespace Xv6.Fs

open Function Bytes Outcome

variable {sb : Superblock} {s t : State} {b c : Nat}

@[simp] theorem store_disk (data : Block) : (s.store b data).disk = update s.disk b data := rfl
@[simp] theorem store_inode (data : Block) : (s.store b data).inode = s.inode := rfl
theorem mem_store_lh (data : Block) : c ∈ (s.store b data).lh ↔ c ∈ s.lh ∨ c = b := by
  unfold State.store
  dsimp only
  split
  · rename_i logged
    exact ⟨.inl, fun found => found.elim id fun same => same ▸ logged⟩
  · simp

@[simp] theorem setInode_disk (k : Nat) (ip : Inode) : (s.setInode k ip).disk = s.disk := rfl
theorem setInode_lh (k : Nat) (ip : Inode) : (s.setInode k ip).lh = s.lh := rfl
@[simp] theorem setInode_inode (k : Nat) (ip : Inode) :
    (s.setInode k ip).inode = update s.inode k ip := rfl

/-- The disk or the log has no room left. -/
def Panic.Full (panic : Panic) : Prop := panic = .outOfBlocks ∨ panic = .tooBigTransaction

theorem logWrite_eq_ok {data : Block} (ran : s.logWrite sb b data = .ok t) :
    t = s.store b data := by
  unfold State.logWrite at ran
  split at ran
  · cases ran
  · cases ran
    rfl

theorem logWrite_ends (sb : Superblock) (s : State) (b : Nat) (data : Block) :
    Ends Panic.Full (· = s.store b data) (s.logWrite sb b data) := by
  unfold State.logWrite
  split
  · exact .inr rfl
  · rfl

theorem bblock_range (sb : Superblock) (inside : b < sb.size) :
    sb.bmapstart ≤ bblock sb b ∧ bblock sb b < sb.dataStart := by
  have order := sb.bitmapNext
  simp only [bblock, Superblock.dataStart, BPB, BSIZE] at order ⊢
  omega

theorem bblock_inj (same : bblock sb b = bblock sb c) (bit : b % BPB = c % BPB) : b = c := by
  simp only [bblock, BPB, BSIZE] at same bit
  omega

theorem bmapstart_lt (sb : Superblock) : sb.bmapstart < sb.dataStart :=
  Nat.lt_of_le_of_lt (Nat.le_add_right _ _) sb.bitmapNext

theorem dataStart_pos (sb : Superblock) : 0 < sb.dataStart := Nat.zero_lt_of_lt (bmapstart_lt sb)

/-- The free map only depends on its own blocks. -/
theorem inUse_congr {left right : Nat → Block}
    (same : ∀ c, sb.bmapstart ≤ c → c < sb.dataStart → left c = right c) (inside : b < sb.size) :
    inUse sb left b = inUse sb right b := by
  obtain ⟨lower, upper⟩ := bblock_range sb inside
  unfold inUse
  rw [same _ lower upper]

/-- What `balloc` leaves: one free data block is now in use and empty. -/
structure Allocated (sb : Superblock) (s t : State) (b : Nat) : Prop where
  free : inUse sb s.disk b = false
  inside : b < sb.size
  inode : t.inode = s.inode
  marks : ∀ c < sb.size, inUse sb t.disk c = (decide (c = b) || inUse sb s.disk c)
  empty : t.disk b = zero
  others : ∀ c, c ≠ b → c < sb.bmapstart ∨ sb.dataStart ≤ c → t.disk c = s.disk c
  lh : ∀ c, c ≠ b → sb.dataStart ≤ c → (c ∈ t.lh ↔ c ∈ s.lh)

theorem inUse_mark (sb : Superblock) (disk : Nat → Block) (b c : Nat) :
    inUse sb (update disk (bblock sb b) (setBit (disk (bblock sb b)) (b % BPB))) c =
      (decide (c = b) || inUse sb disk c) := by
  unfold inUse
  by_cases same : bblock sb c = bblock sb b
  · rw [same, update_self, getBit_setBit]
    congr 1
    refine decide_eq_decide.mpr ⟨bblock_inj same, ?_⟩
    rintro rfl
    rfl
  · have apart : c ≠ b := fun equal => same (by rw [equal])
    rw [update_of_ne same]
    simp [apart]

theorem inUse_unmark (sb : Superblock) (disk : Nat → Block) (b c : Nat) :
    inUse sb (update disk (bblock sb b) (clearBit (disk (bblock sb b)) (b % BPB))) c =
      (decide (c ≠ b) && inUse sb disk c) := by
  unfold inUse
  by_cases same : bblock sb c = bblock sb b
  · rw [same, update_self, getBit_clearBit]
    congr 1
    refine decide_eq_decide.mpr (not_congr ⟨bblock_inj same, ?_⟩)
    rintro rfl
    rfl
  · have apart : c ≠ b := fun equal => same (by rw [equal])
    rw [update_of_ne same]
    simp [apart]

/-- The two stores of `balloc`. -/
theorem allocated_of_stores {b : Nat}
    (found : Scan.first (fun b => !inUse sb s.disk b) sb.size 0 = some b)
    (metadata : ∀ c < sb.dataStart, inUse sb s.disk c = true) :
    Allocated sb s ((s.store (bblock sb b) (setBit (s.disk (bblock sb b)) (b % BPB))).store b zero)
      b := by
  obtain ⟨_, bound, free, _⟩ := Scan.first_eq_some found
  have free : inUse sb s.disk b = false := by simpa using free
  have inside : b < sb.size := by omega
  have data : sb.dataStart ≤ b := by
    by_contra low
    rw [metadata b (by omega)] at free
    cases free
  obtain ⟨lower, upper⟩ := bblock_range sb inside
  refine ⟨free, inside, rfl, ?_, update_self _ _ _, ?_, ?_⟩
  · intro c small
    rw [← inUse_mark]
    refine inUse_congr (fun d _ below => ?_) small
    exact update_of_ne (show d ≠ b by omega) _ _
  · intro c apart outside
    simp only [store_disk, update_of_ne apart]
    exact update_of_ne (show c ≠ bblock sb b by omega) _ _
  · intro c apart high
    rw [mem_store_lh, mem_store_lh, or_iff_left apart, or_iff_left (by omega)]

theorem balloc_ends (metadata : ∀ c < sb.dataStart, inUse sb s.disk c = true) :
    Ends Panic.Full (fun r => Allocated sb s r.1 r.2) (balloc sb s) := by
  unfold balloc
  split
  · exact .inl rfl
  rename_i b found
  refine (logWrite_ends sb s _ _).bind ?_
  rintro t rfl
  refine (logWrite_ends sb _ _ _).bind ?_
  rintro u rfl
  exact allocated_of_stores found metadata

theorem Allocated.data (allocated : Allocated sb s t b)
    (metadata : ∀ c < sb.dataStart, inUse sb s.disk c = true) : sb.dataStart ≤ b := by
  by_contra low
  have free := allocated.free
  rw [metadata b (by omega)] at free
  cases free

end Xv6.Fs
