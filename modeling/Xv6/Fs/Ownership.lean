import Xv6.Fs.Contents
import Xv6.Fs.Truncate
import Xv6.Lib.Run

/- Ownership of blocks over whole runs: every operation of fs.c keeps each block in one place of one
file, and the free map and the disk inodes up to date. -/
namespace Xv6.Fs

open Function Bytes Forest Outcome Option

variable {sb : Superblock} {devsw : Devsw} {s t u : State} {k : Nat} {ip : Inode}
    {inum type off n : Nat}

/-- A completed operation. Slots and arguments are those that the callers pass; `iupdate` comes
after a change of the fields that `link`, `unlink` and `create` change. `bmap` is only called by
`readi` and `writei`. -/
inductive Event where
  | ialloc (type : Nat)
  | iget (inum : Nat)
  | idup (k : Nat)
  | ilock (k : Nat)
  | readi (k off n : Nat)
  | writei (k : Nat) (src : Nat → UInt8) (off n : Nat)
  | dirlink (k : Nat) (name : Nat → UInt8) (inum : Nat)
  | itrunc (k : Nat)
  | iupdate (k major minor nlink : Nat)
  | iput (k : Nat)
  | endOp

instance (s : State) (k : Nat) : Decidable (Open s k) := inferInstanceAs (Decidable (_ ∧ _))

/-- The slot has a reference. -/
def Held (s : State) (k : Nat) : Prop := k < NINODE ∧ 0 < (s.inode k).ref
deriving Decidable

/-- An operation that panics does not complete. -/
def step (sb : Superblock) (devsw : Devsw) (s : State) : Event → Option State
  | .ialloc type =>
    if type = T_DIR ∨ type = T_FILE ∨ type = T_DEV then (ialloc sb s type).toOption.map Prod.fst
    else none
  | .iget inum => if inum < sb.ninodes then (iget s inum).toOption.map Prod.fst else none
  | .idup k => if Held s k then some (idup s k) else none
  | .ilock k => if Held s k then (ilock sb s k).toOption else none
  | .readi k off n =>
    if Open s k ∧ off < 2 ^ 32 ∧ n < 2 ^ 32 then (readi sb devsw s k off n).toOption.map Prod.fst
    else none
  | .writei k src off n =>
    if Open s k ∧ off < 2 ^ 32 ∧ n < 2 ^ 32 then
      (writei sb devsw s k src off n).toOption.map Prod.fst
    else none
  | .dirlink k name inum =>
    if Open s k then (dirlink sb devsw s k name inum).toOption.map Prod.fst else none
  | .itrunc k => if Open s k then (itrunc sb s k).toOption else none
  | .iupdate k major minor nlink =>
    if Open s k ∧ major < 2 ^ 16 ∧ minor < 2 ^ 16 ∧ nlink < 2 ^ 16 then
      (iupdate sb (s.setInode k { s.inode k with major := major, minor := minor, nlink := nlink })
        k).toOption
    else none
  | .iput k => if Held s k then (iput sb s k).toOption else none
  | .endOp => some (endOp sb s)

/-- The files on the disk: every block has one place, the free map has the metadata and the blocks
of the files, and no file has a hole. -/
structure Accounted (sb : Superblock) (disk : Nat → Block) : Prop where
  once : ∀ x y, shape.Valid x → shape.Valid y → fileBlock sb disk x ≠ 0 →
    fileBlock sb disk x = fileBlock sb disk y → x = y
  inside : ∀ x, shape.Valid x → fileBlock sb disk x ≠ 0 →
    sb.dataStart ≤ fileBlock sb disk x ∧ fileBlock sb disk x < sb.size
  bitmap : ∀ c < sb.size, inUse sb disk c = true ↔
    c < sb.dataStart ∨ ∃ x, shape.Valid x ∧ fileBlock sb disk x = c
  full : ∀ inum, Live sb disk inum → ∀ bn, bn * BSIZE < (dinode sb disk inum).size →
    bn < MAXFILE ∧ fileBlock sb disk (place inum bn) ≠ 0

/-- The invariant of the runs. -/
structure Sound (sb : Superblock) (s : State) : Prop where
  inv : Inv sb s
  tight : NoLeak sb s.disk
  named : ∀ k, Held s k → (s.inode k).inum < sb.ninodes

theorem Accounted.sound (image : Accounted sb s.disk) (cold : ∀ k < NINODE, (s.inode k).ref = 0) :
    Sound sb s := by
  have unused : ∀ k, ¬ Held s k := by
    intro k held
    have used := held.2
    rw [cold k held.1] at used
    exact Nat.lt_irrefl 0 used
  have owns : Owns sb (diskRoots sb s.disk) s.disk := by
    constructor
    · exact image.once
    · exact image.inside
    · intro x valid present
      exact (image.bitmap _ (image.inside x valid present).2).mpr (.inr ⟨x, valid, rfl⟩)
    · intro c low
      rw [image.bitmap c (Nat.lt_of_lt_of_le low (Nat.sub_le _ _))]
      exact .inl low
  constructor
  · constructor
    · exact owns
    · exact image.full
    · intro k opened
      exact absurd ⟨opened.1, opened.2.1⟩ (unused k)
    · intro j insideJ _ _ usedJ
      exact absurd ⟨insideJ, usedJ⟩ (unused j)
  · intro c inside used
    exact (image.bitmap c inside).mp used
  · intro k held
    exact absurd held (unused k)

theorem Sound.accounted (sound : Sound sb s) : Accounted sb s.disk := by
  constructor
  · exact sound.inv.owns.exclusive
  · exact sound.inv.owns.data
  · intro c inside
    constructor
    · exact sound.tight c inside
    intro known
    by_cases low : c < sb.dataStart
    · exact sound.inv.owns.metadata c low
    · obtain ⟨x, valid, placed⟩ := known.resolve_left low
      subst placed
      have positive := dataStart_pos sb
      exact sound.inv.owns.marked x valid (by unfold fileBlock at low; omega)
  · exact sound.inv.full

section Slots

section

variable (sound : Sound sb s)
include sound

theorem Sound.slots (disk : t.disk = s.disk)
    (held : ∀ j, Held t j → Held s j ∧ (t.inode j).inum = (s.inode j).inum)
    (loaded : ∀ j, Open t j → Live sb s.disk (t.inode j).inum ∧
      (t.inode j).toDinode.Same (dinode sb s.disk (t.inode j).inum)) : Sound sb t := by
  constructor
  · constructor
    · rw [disk]
      exact sound.inv.owns
    · rw [disk]
      exact sound.inv.full
    · rw [disk]
      exact loaded
    · intro i insideI j insideJ usedI usedJ same
      obtain ⟨heldI, inumI⟩ := held i ⟨insideI, usedI⟩
      obtain ⟨heldJ, inumJ⟩ := held j ⟨insideJ, usedJ⟩
      exact sound.inv.unique i insideI j insideJ heldI.2 heldJ.2
        (inumI.symm.trans (same.trans inumJ))
  · rw [disk]
    exact sound.tight
  · intro j heldT
    obtain ⟨heldS, inum⟩ := held j heldT
    rw [inum]
    exact sound.named j heldS

theorem Sound.congr (disk : t.disk = s.disk)
    (used : ∀ j, 0 < (t.inode j).ref → t.inode j = s.inode j) :
    Sound sb t := by
  apply sound.slots disk
  · intro j held
    have slot := used j held.2
    unfold Held at held ⊢
    rw [slot] at held
    exact ⟨held, by rw [slot]⟩
  · intro j opened
    have slot := used j opened.2.1
    unfold Open at opened
    rw [slot] at opened ⊢
    exact sound.inv.loaded j opened

theorem Sound.setSlot (held : Held s k) (inum : ip.inum = (s.inode k).inum)
    (right : ip.valid = true → Live sb s.disk ip.inum ∧
      ip.toDinode.Same (dinode sb s.disk ip.inum)) :
    Sound sb (s.setInode k ip) := by
  apply sound.slots (setInode_disk k ip)
  · intro j heldJ
    by_cases same : j = k
    · subst same
      rw [setInode_inode, update_self]
      exact ⟨held, inum⟩
    · simp only [Held, setInode_inode, update_of_ne same] at heldJ ⊢
      exact ⟨heldJ, trivial⟩
  · intro j opened
    by_cases same : j = k
    · subst same
      simp only [Open, setInode_inode, update_self] at opened ⊢
      exact right opened.2.2
    · simp only [Open, setInode_inode, update_of_ne same] at opened ⊢
      exact sound.inv.loaded j opened

theorem Sound.setRef (held : Held s k) (ref : Nat) :
    Sound sb (s.setInode k { s.inode k with ref := ref }) := by
  apply sound.setSlot held
  · rfl
  · intro valid
    exact sound.inv.loaded k ⟨held.1, held.2, valid⟩

theorem Sound.recycle (inside : inum < sb.ninodes)
    (absent : ∀ j, Held s j → (s.inode j).inum ≠ inum) :
    Sound sb (s.setInode k { s.inode k with inum := inum, ref := 1, valid := false }) := by
  constructor
  · constructor
    · exact sound.inv.owns
    · exact sound.inv.full
    · intro j opened
      by_cases same : j = k
      · subst same
        simp [Open] at opened
      · simp only [Open, setInode_inode, update_of_ne same] at opened ⊢
        exact sound.inv.loaded j opened
    intro i insideI j insideJ usedI usedJ same
    by_cases mineI : i = k
    · by_cases mineJ : j = k
      · rw [mineI, mineJ]
      · subst mineI
        simp only [setInode_inode, update_self, update_of_ne mineJ] at usedJ same
        exact absurd same.symm (absent j ⟨insideJ, usedJ⟩)
    · by_cases mineJ : j = k
      · subst mineJ
        simp only [setInode_inode, update_self, update_of_ne mineI] at usedI same
        exact absurd same (absent i ⟨insideI, usedI⟩)
      · simp only [setInode_inode, update_of_ne mineI, update_of_ne mineJ]
          at usedI usedJ same
        exact sound.inv.unique i insideI j insideJ usedI usedJ same
  · exact sound.tight
  · intro j held
    by_cases same : j = k
    · subst same
      simp only [setInode_inode, update_self]
      exact inside
    · simp only [Held, setInode_inode, update_of_ne same] at held ⊢
      exact sound.named j held

end

/-- What `iget` does: one more reference to the slot of this inode, or a free slot is taken. -/
theorem iget_eq_ok (ran : iget s inum = .ok (t, k)) :
    (Held s k ∧ (s.inode k).inum = inum ∧
      t = s.setInode k { s.inode k with ref := (s.inode k).ref + 1 }) ∨
    ((s.inode k).ref = 0 ∧ (∀ j, Held s j → (s.inode j).inum ≠ inum) ∧
      t = s.setInode k { s.inode k with inum := inum, ref := 1, valid := false }) := by
  unfold iget at ran
  split at ran
  · rename_i j found
    cases ran
    obtain ⟨_, inside, good, _⟩ := Scan.first_eq_some found
    rw [Bool.and_eq_true, decide_eq_true_iff, beq_iff_eq] at good
    exact .inl ⟨⟨by omega, good.1⟩, good.2, rfl⟩
  rename_i none
  split at ran
  · cases ran
  rename_i j found
  cases ran
  obtain ⟨_, _, free, _⟩ := Scan.first_eq_some found
  rw [beq_iff_eq] at free
  refine .inr ⟨free, ?_, rfl⟩
  intro j held same
  have unwanted := Scan.first_eq_none none j (Nat.zero_le _) (by have := held.1; omega)
  rw [Bool.and_eq_false_iff, decide_eq_false_iff_not, beq_eq_false_iff_ne] at unwanted
  exact unwanted.elim (fun unused => unused held.2) (fun other => other same)

theorem sound_iget (sound : Sound sb s) (inside : inum < sb.ninodes)
    (ran : iget s inum = .ok (t, k)) :
    Sound sb t := by
  cases iget_eq_ok ran with
  | inl found =>
    obtain ⟨held, _, after⟩ := found
    subst after
    exact sound.setRef held _
  | inr taken =>
    obtain ⟨_, absent, after⟩ := taken
    subst after
    exact sound.recycle inside absent

/-- The reference that `dirlink` gets and drops again leaves no trace. -/
theorem iget_iput (got : iget s inum = .ok (t, k)) (put : iput sb t k = .ok u) :
    u.disk = s.disk ∧ ∀ j, 0 < (u.inode j).ref → u.inode j = s.inode j := by
  unfold iput at put
  cases iget_eq_ok got with
  | inl found =>
    obtain ⟨held, _, after⟩ := found
    have many : ¬ ((s.inode k).ref + 1 = 1) := by have := held.2; omega
    subst after
    simp only [setInode_inode, update_self, many, and_false, if_false] at put
    cases put
    refine ⟨rfl, ?_⟩
    intro j _
    by_cases same : j = k
    · subst same
      simp
    · simp [same]
  | inr taken =>
    obtain ⟨_, _, after⟩ := taken
    subst after
    simp only [setInode_inode, update_self, Bool.false_eq_true, false_and, if_false] at put
    cases put
    refine ⟨rfl, ?_⟩
    intro j used
    by_cases same : j = k
    · subst same
      simp [setInode_inode] at used
    · simp [same]

theorem sound_ilock (sound : Sound sb s) (held : Held s k) (ran : ilock sb s k = .ok t) :
    Sound sb t := by
  unfold ilock at ran
  dsimp only at ran
  split at ran
  · cases ran
    exact sound
  split at ran
  · cases ran
  rename_i typed
  cases ran
  apply sound.setSlot held
  · rfl
  · intro _
    exact ⟨⟨sound.named k held, typed⟩, Dinode.Same.refl _⟩

end Slots

section Blocks

theorem sound_itrunc (sound : Sound sb s) (opened : Open s k) (ran : itrunc sb s k = .ok t) :
    Sound sb t := by
  obtain ⟨emptied, slots, agrees⟩ := itrunc_emptied sound.inv opened ran
  have typed : (t.inode k).type ≠ 0 := by
    rw [slots, update_self]
    exact fun null => (sound.inv.loaded k opened).1.2
      ((sound.inv.loaded k opened).2.type.symm.trans null)
  have kept : ∀ j, (t.inode j).ref = (s.inode j).ref ∧ (t.inode j).inum = (s.inode j).inum := by
    intro j
    by_cases same : j = k
    · subst same
      rw [slots, update_self]
      exact ⟨rfl, rfl⟩
    · rw [slots, update_of_ne same]
      exact ⟨rfl, rfl⟩
  constructor
  · apply emptied.inv sound.inv
    · intro j used
      rw [(kept j).1] at used
      exact ⟨used, (kept j).2⟩
    · intro j openedJ mine
      rw [(kept j).2] at mine
      have same : j = k := by
        apply sound.inv.unique j openedJ.1 k opened.1 _ opened.2.1 mine
        rw [← (kept j).1]
        exact openedJ.2.1
      subst same
      exact ⟨⟨(sound.inv.loaded j opened).1.1, fun null => typed (agrees.type.trans null)⟩, agrees⟩
    · intro j other
      have apart : j ≠ k := by
        intro same
        subst same
        exact other (kept j).2
      rw [slots, update_of_ne apart]
  · exact emptied.noLeak sound.inv.owns sound.tight
  · intro j held
    unfold Held at held
    rw [(kept j).1] at held
    rw [(kept j).2]
    exact sound.named j held

theorem Sound.close (sound : Sound sb s) (opened : Open s k)
    (emptied : Emptied sb (s.inode k).inum s.disk t.disk) (slots : t.inode = update s.inode k ip)
    (inum : ip.inum = (s.inode k).inum) (unused : ip.ref = 0) : Sound sb t := by
  have others : ∀ j, 0 < (t.inode j).ref → j ≠ k ∧ t.inode j = s.inode j := by
    intro j used
    have apart : j ≠ k := by
      intro same
      rw [same, slots, update_self, unused] at used
      exact Nat.lt_irrefl 0 used
    exact ⟨apart, by rw [slots, update_of_ne apart]⟩
  constructor
  · apply emptied.inv sound.inv
    · intro j used
      have slot := (others j used).2
      rw [slot] at used ⊢
      exact ⟨used, rfl⟩
    · intro j openedJ mine
      obtain ⟨apart, slot⟩ := others j openedJ.2.1
      have used := openedJ.2.1
      rw [slot] at used mine
      exact absurd (sound.inv.unique j openedJ.1 k opened.1 used opened.2.1 mine) apart
    · intro j other
      have apart : j ≠ k := by
        intro same
        rw [same, slots, update_self] at other
        exact other inum
      rw [slots, update_of_ne apart]
  · exact emptied.noLeak sound.inv.owns sound.tight
  · intro j held
    have slot := (others j held.2).2
    unfold Held at held
    rw [slot] at held ⊢
    exact sound.named j held

/-- `ip->type = 0; iupdate(ip)` after `itrunc`: the disk inode is free too. -/
theorem iput_emptied (inv : Inv sb s) (opened : Open s k) (truncated : itrunc sb s k = .ok t)
    (updated : iupdate sb (t.setInode k { t.inode k with type := 0 }) k = .ok u) :
    Emptied sb (s.inode k).inum s.disk u.disk ∧ (dinode sb u.disk (s.inode k).inum).type = 0 ∧
      u.inode = update s.inode k (emptySlot (s.inode k) 0) := by
  obtain ⟨emptied, slots, _⟩ := itrunc_emptied inv opened truncated
  have cleared : Cleared sb (s.inode k).inum s.disk
      (t.setInode k { t.inode k with type := 0 }).disk := by
    rw [setInode_disk]
    exact emptied.toCleared
  have slotsT : (t.setInode k { t.inode k with type := 0 }).inode =
      update s.inode k (emptySlot (s.inode k) 0) := by
    rw [setInode_inode, slots, update_self, update_idem]
    rfl
  have fits := emptySlot_fits (inv.fits opened) (show 0 < 2 ^ 16 by decide)
  have stored := iupdate_eq_ok updated
  rw [slotsT, update_self] at stored
  subst stored
  refine ⟨?_, (dinode_storeInode_self sb _ _ fits).type, ?_⟩
  · exact cleared.store (inv.loaded k opened).1.1 fits rfl fun j small => emptySlot_addrs _ _ small
  · rw [storeInode_inode, slotsT]

/-- What `iput` does: the inode is freed with its last reference and without a link, or only the
reference goes. -/
theorem iput_eq_ok (inv : Inv sb s) (held : Held s k) (ran : iput sb s k = .ok t) :
    (¬ (Open s k ∧ (s.inode k).nlink = 0 ∧ (s.inode k).ref = 1) ∧
      t = s.setInode k { s.inode k with ref := (s.inode k).ref - 1 }) ∨
    ((Open s k ∧ (s.inode k).nlink = 0 ∧ (s.inode k).ref = 1) ∧
      Emptied sb (s.inode k).inum s.disk t.disk ∧ (dinode sb t.disk (s.inode k).inum).type = 0 ∧
      ∃ ip, t.inode = update s.inode k ip ∧ ip.inum = (s.inode k).inum ∧ ip.ref = 0) := by
  unfold iput at ran
  dsimp only at ran
  split at ran
  · rename_i unlinked
    obtain ⟨u, truncated, ran⟩ := bind_eq_ok.mp ran
    obtain ⟨v, updated, ran⟩ := bind_eq_ok.mp ran
    cases ran
    have opened : Open s k := ⟨held.1, held.2, unlinked.1⟩
    obtain ⟨emptied, type, slots⟩ := iput_emptied inv opened truncated updated
    refine .inr ⟨⟨opened, unlinked.2⟩, emptied, type,
      { emptySlot (s.inode k) 0 with valid := false, ref := (s.inode k).ref - 1 }, ?_, rfl, ?_⟩
    · rw [setInode_inode, setInode_inode, slots, update_self, update_idem, update_self, update_idem]
      rfl
    · change (s.inode k).ref - 1 = 0
      rw [unlinked.2.2]
  · rename_i kept
    cases ran
    exact .inl ⟨fun all => kept ⟨all.1.2.2, all.2⟩, rfl⟩

theorem sound_iput (sound : Sound sb s) (held : Held s k) (ran : iput sb s k = .ok t) :
    Sound sb t := by
  cases iput_eq_ok sound.inv held ran with
  | inl kept =>
    rw [kept.2]
    exact sound.setRef held _
  | inr freed =>
    obtain ⟨unlinked, emptied, _, ip, slots, inum, unused⟩ := freed
    exact sound.close unlinked.1 emptied slots inum unused

theorem cleared_of_dead (dead : ¬ Live sb s.disk inum) : Cleared sb inum s.disk s.disk := by
  have nothing : ∀ c, ¬ BlockOf sb s.disk inum c := by
    intro c found
    obtain ⟨nonzero, x, _, mine, placed⟩ := found
    have root : diskRoots sb s.disk x.1 = 0 := by
      apply if_neg
      rw [mine]
      exact fun both => dead both.1
    rw [fileBlock, target, root, descend_null] at placed
    exact nonzero placed.symm
  constructor
  · intro c _
    exact ⟨fun used => ⟨used, nothing c⟩, fun both => both.1⟩
  · intro c _
    rfl
  · intro other _ _
    exact Dinode.Same.refl _

/-- `ialloc` takes a free disk inode and gets a slot for it. -/
theorem ialloc_eq_ok (ran : ialloc sb s type = .ok (t, k)) :
    ∃ inum, inum ≠ 0 ∧ inum < sb.ninodes ∧ ¬ Live sb s.disk inum ∧
      iget (storeInode sb s inum ⟨type, 0, 0, 0, 0, fun _ => 0⟩) inum = .ok (t, k) := by
  unfold ialloc at ran
  split at ran
  · cases ran
  rename_i inum found
  obtain ⟨lower, upper, free, _⟩ := Scan.first_eq_some found
  rw [beq_iff_eq] at free
  obtain ⟨u, stored, got⟩ := bind_eq_ok.mp ran
  have stored := logWrite_eq_ok stored
  change u = storeInode sb s inum ⟨type, 0, 0, 0, 0, fun _ => 0⟩ at stored
  rw [stored] at got
  exact ⟨inum, by omega, by omega, fun alive => alive.2 free, got⟩

theorem fresh_fits (word : type < 2 ^ 16) : (⟨type, 0, 0, 0, 0, fun _ => 0⟩ : Dinode).Fits :=
  ⟨word, Nat.two_pow_pos 16, Nat.two_pow_pos 16, Nat.two_pow_pos 16, Nat.two_pow_pos 32,
    fun _ _ => Nat.two_pow_pos 32⟩

theorem fresh_emptied (word : type < 2 ^ 16) (inside : inum < sb.ninodes)
    (dead : ¬ Live sb s.disk inum) :
    Emptied sb inum s.disk (storeInode sb s inum ⟨type, 0, 0, 0, 0, fun _ => 0⟩).disk :=
  (cleared_of_dead dead).store inside (fresh_fits word) rfl fun _ _ => rfl

theorem Sound.allocate (sound : Sound sb s) (word : type < 2 ^ 16) (inside : inum < sb.ninodes)
    (dead : ¬ Live sb s.disk inum) :
    Sound sb (storeInode sb s inum ⟨type, 0, 0, 0, 0, fun _ => 0⟩) := by
  have emptied := fresh_emptied word inside dead
  constructor
  · apply emptied.inv sound.inv
    · intro j used
      exact ⟨used, rfl⟩
    · intro j opened mine
      exact absurd (mine ▸ (sound.inv.loaded j opened).1) dead
    · intro j _
      rfl
  · exact emptied.noLeak sound.inv.owns sound.tight
  · exact sound.named

theorem sound_ialloc (sound : Sound sb s) (word : type < 2 ^ 16)
    (ran : ialloc sb s type = .ok (t, k)) :
    Sound sb t := by
  obtain ⟨inum, _, inside, dead, got⟩ := ialloc_eq_ok ran
  exact sound_iget (sound.allocate word inside dead) inside got

theorem fileBlock_storeInode (inv : Inv sb s) (opened : Open s k) (fits : ip.Fits)
    (type : ip.type = (s.inode k).type) (addrs : ip.addrs = (s.inode k).addrs) {x : Place Root}
    (valid : shape.Valid x) :
    fileBlock sb (storeInode sb (s.setInode k ip) (s.inode k).inum ip.toDinode).disk x =
      fileBlock sb s.disk x := by
  obtain ⟨alive, agrees⟩ := inv.loaded k opened
  have typed : ip.type ≠ 0 := by
    rw [type, agrees.type]
    exact alive.2
  have roots : diskRoots sb (storeInode sb (s.setInode k ip) (s.inode k).inum ip.toDinode).disk =
      diskRoots sb s.disk := by
    funext root
    rw [diskRoots_storeInode alive.1 fits (.inl typed), addrs]
    conv => rhs; rw [← inv.liveRoots_eq opened]
    rfl
  unfold fileBlock
  rw [roots]
  exact target_storeInode (u := s.setInode k ip) inv.owns alive.1 _ valid

/-- The disk inode of a slot is stored with other fields but the same blocks. -/
theorem Sound.update (sound : Sound sb s) (opened : Open s k) (fits : ip.Fits)
    (kept : ip.inum = (s.inode k).inum ∧ ip.ref = (s.inode k).ref)
    (same : ip.type = (s.inode k).type ∧ ip.size = (s.inode k).size ∧
      ip.addrs = (s.inode k).addrs) :
    Sound sb (storeInode sb (s.setInode k ip) (s.inode k).inum ip.toDinode) := by
  obtain ⟨inum, ref⟩ := kept
  obtain ⟨type, size, addrs⟩ := same
  obtain ⟨alive, agrees⟩ := sound.inv.loaded k opened
  have self := dinode_storeInode_self sb (s.setInode k ip) (s.inode k).inum fits
  have typed : ip.type ≠ 0 := by
    rw [type, agrees.type]
    exact alive.2
  have blocks : ∀ x, shape.Valid x →
      fileBlock sb (storeInode sb (s.setInode k ip) (s.inode k).inum ip.toDinode).disk x =
        fileBlock sb s.disk x :=
    fun _ valid => fileBlock_storeInode sound.inv opened fits type addrs valid
  have marks : ∀ c < sb.size,
    inUse sb (storeInode sb (s.setInode k ip) (s.inode k).inum ip.toDinode).disk c =
        inUse sb s.disk c :=
    fun c inside => inUse_storeInode alive.1 _ inside
  have slots : ∀ j, ((s.setInode k ip).inode j).ref = (s.inode j).ref ∧
      ((s.setInode k ip).inode j).inum = (s.inode j).inum := by
    intro j
    by_cases mine : j = k
    · rw [mine, setInode_inode, update_self]
      exact ⟨ref, inum⟩
    · rw [setInode_inode, update_of_ne mine]
      exact ⟨rfl, rfl⟩
  constructor
  · apply sound.inv.replace (sound.inv.owns.congr blocks marks)
      (fun other _ apart => dinode_storeInode_ne sb (s.setInode k ip) ip.toDinode apart)
      (fun x valid _ => blocks x valid)
    · intro _ bn inside
      rw [self.size, size, agrees.size] at inside
      obtain ⟨block, present⟩ := sound.inv.full _ alive bn inside
      rw [blocks _ (place_valid _ block).1]
      exact ⟨block, present⟩
    · intro j used
      rw [storeInode_inode, (slots j).1] at used
      rw [storeInode_inode, (slots j).2]
      exact ⟨used, rfl⟩
    · intro j openedJ mine
      rw [storeInode_inode, (slots j).2] at mine
      have used := openedJ.2.1
      rw [storeInode_inode, (slots j).1] at used
      have equal := sound.inv.unique j openedJ.1 k opened.1 used opened.2.1 mine
      rw [storeInode_inode, equal, setInode_inode, update_self]
      exact ⟨⟨alive.1, fun null => typed (self.type.symm.trans null)⟩, self.symm⟩
    · intro j other
      rw [storeInode_inode, (slots j).2] at other
      have apart : j ≠ k := fun equal => other (by rw [equal])
      rw [storeInode_inode, setInode_inode, update_of_ne apart]
  · intro c inside used
    rw [marks c inside] at used
    cases sound.tight c inside used with
    | inl low => exact .inl low
    | inr found =>
      obtain ⟨x, valid, placed⟩ := found
      exact .inr ⟨x, valid, (blocks x valid).trans placed⟩
  · intro j held
    unfold Held at held
    rw [storeInode_inode, (slots j).1] at held
    rw [storeInode_inode, (slots j).2]
    exact sound.named j held

theorem sound_iupdate (sound : Sound sb s) (opened : Open s k) {major minor nlink : Nat}
    (majorWord : major < 2 ^ 16) (minorWord : minor < 2 ^ 16) (nlinkWord : nlink < 2 ^ 16)
    (ran : iupdate sb (s.setInode k
      { s.inode k with major := major, minor := minor, nlink := nlink }) k = .ok t) :
        Sound sb t := by
  have stored := iupdate_eq_ok ran
  rw [setInode_inode, update_self] at stored
  subst stored
  have old := sound.inv.fits opened
  apply sound.update opened
  · exact ⟨old.type, majorWord, minorWord, nlinkWord, old.size, old.addrs⟩
  · exact ⟨rfl, rfl⟩
  · exact ⟨rfl, rfl, rfl⟩

end Blocks

section Files

/-- `readi` never allocates: whatever is asked for, it returns in the state it started in. -/
theorem readi_returns (devsw : Devsw) (inv : Inv sb s) (opened : Open s k) (offWord : off < 2 ^ 32)
    (word : n < 2 ^ 32) : ∃ r, readi sb devsw s k off n = .ok (s, r) := by
  by_cases device : (s.inode k).type = T_DEV
  · unfold readi
    rw [if_pos device]
    split
    · exact ⟨_, rfl⟩
    · exact ⟨_, rfl⟩
  · by_cases bad : off > (s.inode k).size ∨ (off + n) % 2 ^ 32 < off
    · unfold readi
      rw [if_neg device, if_pos bad]
      exact ⟨_, rfl⟩
    · exact ⟨_, readi_eq devsw inv opened device (by omega) (by omega)⟩

theorem sound_writei (sound : Sound sb s) (opened : Open s k) {src : Nat → UInt8} {r : Option Nat}
    (offWord : off < 2 ^ 32) (word : n < 2 ^ 32)
    (ran : writei sb devsw s k src off n = .ok (t, r)) :
    Sound sb t := by
  rcases writei_eq_ok sound.inv opened offWord word ran with rfl | ⟨u, done⟩
  · exact sound
  · refine ⟨done.kept, done.noLeak sound.tight, fun j held => ?_⟩
    obtain ⟨inum, ref, _⟩ := done.slot_fields j
    rw [inum]
    exact sound.named j ⟨held.1, ref ▸ held.2⟩

section

variable (inv : Inv sb s) (opened : Open s k)
include inv opened

theorem readDirent_same {panic : Panic} {de : List UInt8} (offWord : off < 2 ^ 32)
    (ran : readDirent sb devsw panic s k off = .ok (t, de)) : t = s := by
  unfold readDirent at ran
  obtain ⟨r, reads⟩ := readi_returns devsw inv opened offWord (show DIRENT < 2 ^ 32 by decide)
  rw [reads, bind_eq_ok] at ran
  obtain ⟨⟨u, bytes⟩, first, last⟩ := ran
  cases first
  dsimp only at last
  split at last
  · split at last
    · cases last
      rfl
    · cases last
  · cases last

/-- The loop of `dirlookup` only reads. -/
theorem dirlookupLoop_same {name : Nat → UInt8} {found : Option (Nat × Nat)} (fuel off : Nat)
    (ran : dirlookupLoop sb devsw k name fuel s off = .ok (t, found)) : t = s := by
  induction fuel generalizing off with
  | zero =>
    cases ran
    rfl
  | succ fuel ih =>
    unfold dirlookupLoop at ran
    split at ran
    · rename_i more
      have limit := inv.size_le opened
      have bound : MAXFILE * BSIZE < 2 ^ 32 := by decide
      obtain ⟨⟨u, de⟩, entry, rest⟩ := bind_eq_ok.mp ran
      have same := readDirent_same inv opened (show off < 2 ^ 32 by omega) entry
      subst same
      dsimp only at rest
      split at rest
      · cases rest
        rfl
      · exact ih _ rest
    · cases ran
      rfl

/-- The loop of `dirlink` only reads and stops at an offset near the directory's end at the
latest. -/
theorem dirlinkLoop_same {last : Nat} (fuel off : Nat) (near : off < (s.inode k).size + DIRENT)
    (ran : dirlinkLoop sb devsw k fuel s off = .ok (t, last)) : t = s ∧
    last < (s.inode k).size + DIRENT := by
  induction fuel generalizing off with
  | zero =>
    cases ran
    exact ⟨rfl, near⟩
  | succ fuel ih =>
    unfold dirlinkLoop at ran
    split at ran
    · rename_i more
      have limit := inv.size_le opened
      have bound : MAXFILE * BSIZE < 2 ^ 32 := by decide
      obtain ⟨⟨u, de⟩, entry, rest⟩ := bind_eq_ok.mp ran
      have same := readDirent_same inv opened (show off < 2 ^ 32 by omega) entry
      subst same
      dsimp only at rest
      split at rest
      · cases rest
        exact ⟨rfl, near⟩
      · exact ih _ (by omega) rest
    · cases ran
      exact ⟨rfl, near⟩

end

theorem sound_dirlink (sound : Sound sb s) (opened : Open s k) {name : Nat → UInt8} {r : Bool}
    (ran : dirlink sb devsw s k name inum = .ok (t, r)) : Sound sb t := by
  unfold dirlink at ran
  obtain ⟨⟨u, found⟩, looked, rest⟩ := bind_eq_ok.mp ran
  unfold dirlookup at looked
  split at looked
  · cases looked
  obtain ⟨⟨v, entry⟩, searched, looked⟩ := bind_eq_ok.mp looked
  have same := dirlookupLoop_same sound.inv opened _ _ searched
  subst same
  cases entry with
  | some place =>
    obtain ⟨off, number⟩ := place
    dsimp only at looked
    obtain ⟨⟨w, slot⟩, got, ended⟩ := bind_eq_ok.mp looked
    cases ended
    dsimp only at rest
    obtain ⟨final, put, ended⟩ := bind_eq_ok.mp rest
    cases ended
    obtain ⟨disk, slots⟩ := iget_iput got put
    exact sound.congr disk slots
  | none =>
    cases looked
    dsimp only at rest
    obtain ⟨⟨w, off⟩, searched, written⟩ := bind_eq_ok.mp rest
    obtain ⟨same, near⟩ :=
      dirlinkLoop_same sound.inv opened _ _ (Nat.add_pos_right _ (by decide)) searched
    subst same
    obtain ⟨⟨final, count⟩, wrote, ended⟩ := bind_eq_ok.mp written
    have limit := sound.inv.size_le opened
    have bound : MAXFILE * BSIZE + DIRENT < 2 ^ 32 := by decide
    have kept := sound_writei sound opened (show off < 2 ^ 32 by omega)
      (show DIRENT < 2 ^ 32 by decide) wrote
    dsimp only at ended
    split at ended
    · cases ended
      exact kept
    · cases ended

end Files

theorem sound_step {event : Event} (sound : Sound sb s) (taken : step sb devsw s event = some t) :
    Sound sb t := by
  cases event with
  | ialloc type =>
    obtain ⟨known, ran⟩ := ite_none_right_eq_some.mp taken
    obtain ⟨k, ran⟩ := toOption_map_fst_eq_some.mp ran
    exact sound_ialloc sound (by simp only [T_DIR, T_FILE, T_DEV] at known; omega) ran
  | iget inum =>
    obtain ⟨inside, ran⟩ := ite_none_right_eq_some.mp taken
    obtain ⟨k, ran⟩ := toOption_map_fst_eq_some.mp ran
    exact sound_iget sound inside ran
  | idup k =>
    obtain ⟨held, ran⟩ := ite_none_right_eq_some.mp taken
    cases ran
    exact sound.setRef held _
  | ilock k =>
    obtain ⟨held, ran⟩ := ite_none_right_eq_some.mp taken
    exact sound_ilock sound held (toOption_eq_some.mp ran)
  | readi k off n =>
    obtain ⟨⟨opened, offWord, word⟩, ran⟩ := ite_none_right_eq_some.mp taken
    obtain ⟨r, ran⟩ := toOption_map_fst_eq_some.mp ran
    obtain ⟨_, same⟩ := readi_returns devsw sound.inv opened offWord word
    rw [same] at ran
    cases ran
    exact sound
  | writei k src off n =>
    obtain ⟨⟨opened, offWord, word⟩, ran⟩ := ite_none_right_eq_some.mp taken
    obtain ⟨r, ran⟩ := toOption_map_fst_eq_some.mp ran
    exact sound_writei sound opened offWord word ran
  | dirlink k name inum =>
    obtain ⟨opened, ran⟩ := ite_none_right_eq_some.mp taken
    obtain ⟨r, ran⟩ := toOption_map_fst_eq_some.mp ran
    exact sound_dirlink sound opened ran
  | itrunc k =>
    obtain ⟨opened, ran⟩ := ite_none_right_eq_some.mp taken
    exact sound_itrunc sound opened (toOption_eq_some.mp ran)
  | iupdate k major minor nlink =>
    obtain ⟨⟨opened, first, second, third⟩, ran⟩ := ite_none_right_eq_some.mp taken
    exact sound_iupdate sound opened first second third (toOption_eq_some.mp ran)
  | iput k =>
    obtain ⟨held, ran⟩ := ite_none_right_eq_some.mp taken
    exact sound_iput sound held (toOption_eq_some.mp ran)
  | endOp =>
    cases taken
    have disk : (endOp sb s).disk = s.disk := by unfold endOp; split <;> rfl
    have inode : (endOp sb s).inode = s.inode := by unfold endOp; split <;> rfl
    exact sound.congr disk fun j _ => congrFun inode j

theorem sound_exec {events : List Event} {last : State} (image : Accounted sb s.disk)
    (cold : ∀ k < NINODE, (s.inode k).ref = 0)
    (run : Run.exec (step sb devsw) s events = some last) : Sound sb last :=
  Run.exec_invariant (Sound sb) (fun _ _ _ before _ taken => sound_step before taken)
    (image.sound cold) (Run.steps_of_forall (fun _ _ => trivial) s events) run

/-- From an image whose files are accounted for, with no inode in memory, every sequence of
completed operations keeps them so. `readi` on an open file does not change the state, and a loaded
inode has the size and the addresses of its disk inode. -/
theorem block_ownership_kept {events : List Event} {last : State} (image : Accounted sb s.disk)
    (cold : ∀ k < NINODE, (s.inode k).ref = 0)
    (run : Run.exec (step sb devsw) s events = some last) :
    Accounted sb last.disk ∧ ∀ k, Open last k →
      (∀ off < 2 ^ 32, ∀ n < 2 ^ 32, ∃ r, readi sb devsw last k off n = .ok (last, r)) ∧
      (last.inode k).size = (dinode sb last.disk (last.inode k).inum).size ∧
      ∀ j < NADDRS, (last.inode k).addrs j = (dinode sb last.disk (last.inode k).inum).addrs j := by
  have sound := sound_exec image cold run
  apply And.intro sound.accounted
  intro k opened
  have agrees := (sound.inv.loaded k opened).2
  refine ⟨?_, agrees.size, agrees.addrs⟩
  intro off offWord n word
  exact readi_returns devsw sound.inv opened offWord word

theorem smallState_sound : Sound smallSb smallState := by
  have marks : ∀ c < 80, inUse smallSb smallDisk c = true → c < 36 := by decide +kernel
  have named : ∀ k < NINODE, (smallState.inode k).inum < 8 := by decide
  exact ⟨smallState_inv, fun c inside used => .inl (marks c inside used), fun k held =>
      named k held.1⟩

theorem smallDisk_accounted : Accounted smallSb smallDisk := smallState_sound.accounted

/-- The small disk after the machine has started. -/
def smallCold :
    State := { smallState with inode := fun _ => ⟨⟨0, 0, 0, 0, 0, fun _ => 0⟩, 0, 0, false⟩ }

/-- A new file is written and dropped again, beside a write to the old one. -/
def smallRun : List Event :=
  [.ialloc T_FILE, .ilock 0, .writei 0 (fun i => UInt8.ofNat i) 0 700, .iget 1, .ilock 1,
    .writei 1 (fun _ => 7) 0 20, .readi 1 0 20, .iupdate 1 0 0 2, .iput 0, .endOp]

theorem block_ownership_kept_small :
    Accounted smallSb smallCold.disk ∧ (∀ k < NINODE, (smallCold.inode k).ref = 0) ∧
      ∃ last, Run.exec (step smallSb noDevices) smallCold smallRun = some last ∧
        Accounted smallSb last.disk := by
  have returns : (Run.exec (step smallSb noDevices) smallCold smallRun).isSome = true := by
    decide +kernel
  obtain ⟨last, run⟩ := isSome_iff_exists.mp returns
  exact ⟨smallDisk_accounted, fun _ _ => rfl, last, run,
    (block_ownership_kept smallDisk_accounted (fun _ _ => rfl) run).1⟩

/-- In such a run no two slots of the cache hold one inode, and the inode in a loaded slot is not
free. -/
theorem inodes_cached_once {events : List Event} {last : State} (image : Accounted sb s.disk)
    (cold : ∀ k < NINODE, (s.inode k).ref = 0)
    (run : Run.exec (step sb devsw) s events = some last) :
    (∀ j k, Held last j → Held last k → (last.inode j).inum = (last.inode k).inum → j = k) ∧
      ∀ k, Open last k → Live sb last.disk (last.inode k).inum := by
  have inv := (sound_exec image cold run).inv
  exact ⟨fun j k held held' => inv.unique j held.1 k held'.1 held.2 held'.2,
    fun k opened => (inv.loaded k opened).1⟩

theorem inodes_cached_once_small :
    ∃ last, Run.exec (step smallSb noDevices) smallCold smallRun = some last ∧
    ∀ j k, Held last j → Held last k → (last.inode j).inum = (last.inode k).inum → j = k := by
  obtain ⟨last, run⟩ := isSome_iff_exists.mp
    (by decide +kernel : (Run.exec (step smallSb noDevices) smallCold smallRun).isSome = true)
  exact ⟨last, run, (inodes_cached_once smallDisk_accounted (fun _ _ => rfl) run).1⟩

end Xv6.Fs
