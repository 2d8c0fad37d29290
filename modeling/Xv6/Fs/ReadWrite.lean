import Xv6.Fs.Invariant

/- `readi` and `writei` on a file whose inode is loaded. -/
namespace Xv6.Fs

open Bytes Forest Outcome Overlay Function

variable {sb : Superblock} {devsw : Devsw} {s t u : State} {k : Nat}

/-- The loop of `readi` on blocks that exist changes nothing. -/
theorem readiLoop_mapped (n fuel : Nat) {tot off : Nat} (enough : n - tot ≤ fuel)
    (mapped : ∀ i, off ≤ i → i < off + (n - tot) → i / BSIZE < MAXFILE ∧
      Mapped sb s k (i / BSIZE)) :
    readiLoop sb k n fuel s tot off =
      .ok (s, (List.range (n - tot)).map fun i => byteAt sb s k (off + i)) := by
  induction fuel generalizing tot off with
  | zero =>
    obtain none_left : n - tot = 0 := by omega
    rw [none_left]
    rfl
  | succ fuel ih =>
    unfold readiLoop
    split
    · rename_i more
      obtain ⟨inside, present⟩ := mapped off (Nat.le_refl _) (by omega)
      rw [bmap_mapped inside present]
      dsimp only [bind, Except.bind]
      generalize chunk : min (n - tot) (BSIZE - off % BSIZE) = m
      have part : off % BSIZE < BSIZE := Nat.mod_lt _ (by decide)
      have within : off % BSIZE + m ≤ BSIZE ∧ 0 < m ∧ m ≤ n - tot := by
        simp only [BSIZE] at part chunk ⊢
        omega
      obtain ⟨within, pos, fits⟩ := within
      rw [ih (by omega) fun i lower upper => mapped i (by omega) (by omega)]
      dsimp only
      congr 2
      have whole : n - tot = m + (n - (tot + m)) := by omega
      rw [whole, List.range_add, List.map_append, List.map_map]
      congr 1
      · refine List.map_congr_left fun i member => ?_
        have small := List.mem_range.mp member
        have block : (off + i) / BSIZE = off / BSIZE := by
          simp only [BSIZE] at within ⊢
          omega
        have rest : (off + i) % BSIZE = off % BSIZE + i := by
          simp only [BSIZE] at within ⊢
          omega
        simp only [byteAt, block, rest]
      · refine List.map_congr_left fun i _ => ?_
        simp only [comp_apply, Nat.add_assoc]
    · rename_i done
      obtain none_left : n - tot = 0 := by omega
      rw [none_left]
      rfl

theorem byteAt_eq (inv : Inv sb s) (opened : Open s k) {i : Nat} (inside : i < (s.inode k).size) :
    (contents sb s.disk (s.inode k).inum)[i]? = some (byteAt sb s k i) := by
  rw [contents_getElem?, ← inv.size_eq opened, if_pos inside]
  simp only [byteAt, inv.blockAt_eq opened]

/-- `readi` on a file: the bytes from `off` on, up to the end, and no change of state. -/
theorem readi_eq (devsw : Devsw) (inv : Inv sb s) (opened : Open s k)
    (file : (s.inode k).type ≠ T_DEV) {off n : Nat} (offset : off ≤ (s.inode k).size)
    (word : off + n < 2 ^ 32) :
    readi sb devsw s k off n = .ok (s,
      some (((contents sb s.disk (s.inode k).inum).drop off).take n)) := by
  unfold readi
  rw [Nat.mod_eq_of_lt word, if_neg file, if_neg (by omega)]
  dsimp only
  generalize count : (if off + n > (s.inode k).size then (s.inode k).size - off else n) = m
  have within : off + m ≤ (s.inode k).size ∧ m ≤ n ∧ (m < n → off + m = (s.inode k).size) := by
    split at count <;> omega
  rw [readiLoop_mapped m m (by omega) fun i lower upper => inv.mapped opened (by omega)]
  dsimp only [bind, Except.bind]
  congr 3
  have length := contents_length sb s.disk (s.inode k).inum
  rw [← inv.size_eq opened] at length
  apply List.ext_getElem?
  intro i
  rw [List.getElem?_take, List.getElem?_drop, List.getElem?_map]
  by_cases inside : i < m
  · rw [if_pos (by omega), byteAt_eq inv opened (by omega), Nat.sub_zero,
      List.getElem?_range inside]
    rfl
  · rw [List.getElem?_eq_none (by rw [List.length_range]; omega)]
    split
    · rw [List.getElem?_eq_none (by omega)]
      rfl
    · rfl

/-- No block is marked without a place. -/
def NoLeak (sb : Superblock) (disk : Nat → Block) : Prop :=
  ∀ c < sb.size, inUse sb disk c = true → c < sb.dataStart ∨ ∃ x, shape.Valid x ∧
    fileBlock sb disk x = c

/-- What `writei` leaves: the file has the new bytes, everything else is as it was. -/
structure Stored (sb : Superblock) (k off : Nat) (bytes : List UInt8) (s t : State) : Prop where
  inv : Inv sb t
  slots : ∀ j, j ≠ k → t.inode j = s.inode j
  slot : ∃ size addrs, t.inode k = { s.inode k with size := size, addrs := addrs }
  live : ∀ inum, Live sb t.disk inum ↔ Live sb s.disk inum
  dinodes : ∀ inum < sb.ninodes, inum ≠ (s.inode k).inum →
    (dinode sb t.disk inum).Same (dinode sb s.disk inum)
  here :
    contents sb t.disk (s.inode k).inum = overlay (contents sb s.disk (s.inode k).inum) off bytes
  others : ∀ inum, inum ≠ (s.inode k).inum → Live sb s.disk inum →
    contents sb t.disk inum = contents sb s.disk inum
  noLeak : NoLeak sb s.disk → NoLeak sb t.disk

/-- The end of `writei`, whether or not it calls `iupdate`: `t` is the state `u` of the loop with
the disk inode brought up to date. -/
structure Finished (sb : Superblock) (k off n : Nat) (src : Nat → UInt8)
    (s u t : State) : Prop where
  inv : Inv sb s
  opened : Open s k
  wrote : Wrote sb k off n src s u
  offset : off ≤ (s.inode k).size
  bound : off + n ≤ MAXFILE * BSIZE
  blocks : ∀ x, shape.Valid x → fileBlock sb t.disk x = blockAt sb u k x
  high : ∀ c, sb.bmapstart ≤ c → t.disk c = u.disk c
  dinodes : ∀ inum < sb.ninodes, inum ≠ (s.inode k).inum →
    (dinode sb t.disk inum).Same (dinode sb s.disk inum)
  size : (dinode sb t.disk (s.inode k).inum).size = max (s.inode k).size (off + n)
  live : Live sb t.disk (s.inode k).inum
  same : (t.inode k).toDinode.Same (dinode sb t.disk (s.inode k).inum)
  slots : ∀ j, j ≠ k → t.inode j = s.inode j
  slot : ∃ size addrs, t.inode k = { s.inode k with size := size, addrs := addrs }

namespace Finished

variable {off n : Nat} {src : Nat → UInt8} (done : Finished sb k off n src s u t)

include done

theorem marks {c : Nat} (inside : c < sb.size) : inUse sb t.disk c = inUse sb u.disk c :=
  inUse_congr (fun d lower _ => done.high d lower) inside

theorem owns : Owns sb (diskRoots sb t.disk) t.disk :=
  done.wrote.owns.congr done.blocks fun _ inside => done.marks inside

theorem slot_fields (j : Nat) : (t.inode j).inum = (s.inode j).inum ∧
    (t.inode j).ref = (s.inode j).ref ∧ (t.inode j).valid = (s.inode j).valid := by
  by_cases equal : j = k
  · subst equal
    obtain ⟨size, addrs, slot⟩ := done.slot
    rw [slot]
    exact ⟨rfl, rfl, rfl⟩
  · rw [done.slots j equal]
    exact ⟨rfl, rfl, rfl⟩

theorem live_iff (inum : Nat) : Live sb t.disk inum ↔ Live sb s.disk inum := by
  by_cases mine : inum = (s.inode k).inum
  · subst mine
    exact ⟨fun _ => (done.inv.loaded k done.opened).1, fun _ => done.live⟩
  · refine and_congr_right fun inside => ?_
    rw [(done.dinodes inum inside mine).type]

theorem foreign_block {x : Place Root} (valid : shape.Valid x) (other : x.1.1 ≠ (s.inode k).inum) :
    fileBlock sb t.disk x = fileBlock sb s.disk x := by
  rw [done.blocks x valid, done.wrote.others x valid other, done.inv.blockAt_eq done.opened]

theorem byte {i : Nat} (inside : i < MAXFILE * BSIZE) (present : Mapped sb u k (i / BSIZE)) :
    t.disk (fileBlock sb t.disk (place (s.inode k).inum (i / BSIZE)))
      (i % BSIZE) = byteAt sb u k i := by
  obtain ⟨valid, _, _⟩ := place_valid (s.inode k).inum (div_lt_maxfile inside)
  unfold Mapped at present
  rw [done.wrote.inum] at present
  have range := done.wrote.owns.dataAt valid present
  have order := bmapstart_lt sb
  unfold byteAt
  rw [done.blocks _ valid, done.wrote.inum, done.high _ (by omega)]

theorem reaches {i : Nat} (inside : i < max (s.inode k).size (off + n)) :
    i < MAXFILE * BSIZE ∧ Mapped sb u k (i / BSIZE) := by
  have limit := done.inv.size_le done.opened
  have bound := done.bound
  refine ⟨by omega, ?_⟩
  by_cases written : off ≤ i ∧ i < off + n
  · exact done.wrote.mapped i written.1 written.2
  · have offset := done.offset
    obtain ⟨block, present⟩ := done.inv.mapped done.opened (show i < (s.inode k).size by omega)
    exact done.wrote.toGrows.mapped block present

theorem full (bn : Nat) (inside : bn * BSIZE < (dinode sb t.disk (s.inode k).inum).size) :
    bn < MAXFILE ∧ fileBlock sb t.disk (place (s.inode k).inum bn) ≠ 0 := by
  rw [done.size] at inside
  obtain ⟨small, present⟩ := done.reaches inside
  have block : bn < MAXFILE := Nat.lt_of_mul_lt_mul_right small
  rw [Nat.mul_div_cancel _ (by decide)] at present
  unfold Mapped at present
  rw [done.wrote.inum] at present
  rw [done.blocks _ (place_valid _ block).1]
  exact ⟨block, present⟩

theorem kept : Inv sb t := by
  apply done.inv.replace done.owns done.dinodes
  · intro x valid other
    exact done.foreign_block valid other
  · intro _
    exact done.full
  · intro j used
    rw [(done.slot_fields j).2.1] at used
    exact ⟨used, (done.slot_fields j).1⟩
  · intro j openedJ mine
    rw [(done.slot_fields j).1] at mine
    have used := openedJ.2.1
    rw [(done.slot_fields j).2.1] at used
    have same := done.inv.unique j openedJ.1 k done.opened.1 used done.opened.2.1 mine
    rw [same]
    exact ⟨done.live, done.same⟩
  · intro j other
    apply done.slots j
    intro same
    rw [same, (done.slot_fields k).1] at other
    exact other rfl

theorem here : contents sb t.disk (s.inode k).inum =
    overlay (contents sb s.disk (s.inode k).inum) off ((List.range n).map src) := by
  have offset := done.offset
  have oldLength := offset_le_length done.inv done.opened offset
  apply List.ext_getElem?
  intro i
  rw [contents_getElem?, done.size, Overlay.getElem?_overlay oldLength, List.length_map,
      List.length_range]
  by_cases written : off ≤ i ∧ i < off + n
  · obtain ⟨small, present⟩ := done.reaches (show i < max (s.inode k).size (off + n) by omega)
    rw [if_pos (by omega), if_pos written, done.byte small present,
      done.wrote.bytes i written.1 written.2, List.getElem?_map, List.getElem?_range (by omega)]
    rfl
  · rw [if_neg written]
    by_cases old : i < (s.inode k).size
    · obtain ⟨small, present⟩ := done.reaches (show i < max (s.inode k).size (off + n) by omega)
      rw [if_pos (by omega), done.byte small present,
        done.wrote.rest i small (by omega) (done.inv.mapped done.opened old).2,
        byteAt_eq done.inv done.opened old]
    · rw [if_neg (by omega), contents_getElem?, ← done.inv.size_eq done.opened, if_neg old]

theorem others (inum : Nat) (other : inum ≠ (s.inode k).inum) (alive : Live sb s.disk inum) :
    contents sb t.disk inum = contents sb s.disk inum := by
  apply List.ext_getElem?
  intro i
  rw [contents_getElem?, contents_getElem?, (done.dinodes inum alive.1 other).size]
  split
  · rename_i inside
    have start : i / BSIZE * BSIZE < (dinode sb s.disk inum).size :=
      Nat.lt_of_le_of_lt (Nat.div_mul_le_self _ _) inside
    obtain ⟨block, present⟩ := done.inv.full inum alive _ start
    obtain ⟨valid, leaf, _⟩ := place_valid inum block
    have apart : (place inum (i / BSIZE)).1.1 ≠ (s.inode k).inum := by
      rw [place_inum]
      exact other
    have range := done.inv.owns.data _ valid present
    have order := bmapstart_lt sb
    rw [← done.inv.blockAt_eq done.opened] at present
    have kept := done.wrote.foreign _ valid leaf apart present
    rw [done.inv.blockAt_eq done.opened] at kept
    rw [done.foreign_block valid apart, done.high _ (by unfold fileBlock; omega), kept]
  · rfl

theorem noLeak (before : NoLeak sb s.disk) : NoLeak sb t.disk := by
  intro c inside used
  by_cases metadata : c < sb.dataStart
  · exact .inl metadata
  have nonzero : c ≠ 0 := by
    have := dataStart_pos sb
    omega
  right
  rw [done.marks inside] at used
  rcases done.wrote.accounted c inside used with old | ⟨_, x, valid, placed⟩
  · obtain ⟨x, valid, placed⟩ := (before c inside old).resolve_left metadata
    rw [← done.inv.blockAt_eq done.opened] at placed
    refine ⟨x, valid, ?_⟩
    rw [done.blocks x valid, done.wrote.keeps x valid (placed ▸ nonzero), placed]
  · exact ⟨x, valid, by rw [done.blocks x valid, placed]⟩

theorem stored : Stored sb k off ((List.range n).map src) s t :=
  ⟨done.kept, done.slots, done.slot, done.live_iff, done.dinodes, done.here,
      done.others, done.noLeak⟩

end Finished

section Writei

variable {off n : Nat} {src : Nat → UInt8}

section

variable (inv : Inv sb s) (opened : Open s k) (wrote : Wrote sb k off n src s u)
    (offset : off ≤ (s.inode k).size) (bound : off + n ≤ MAXFILE * BSIZE)
include inv opened wrote offset bound

/-- The size grows: `ip->size = off; iupdate(ip)`. -/
theorem finished_grown (grows : (s.inode k).size < off + n) :
    let v := u.setInode k { u.inode k with size := off + n }
    Finished sb k off n src s u (storeInode sb v (v.inode k).inum (v.inode k).toDinode) := by
  obtain ⟨alive, agrees⟩ := inv.loaded k opened
  obtain ⟨addrs, inode⟩ := wrote.inode
  have slotU : u.inode k = { s.inode k with addrs := addrs } := by
    rw [inode, update_self]
  intro v
  have after : u.setInode k { u.inode k with size := off + n } = v := rfl
  clear_value v
  have slotV : v.inode k = { s.inode k with size := off + n, addrs := addrs } := by
    rw [← after, setInode_inode, update_self, slotU]
  have disk : v.disk = u.disk := by rw [← after]; rfl
  have inside : (v.inode k).inum < sb.ninodes := by
    rw [slotV]
    exact alive.1
  have typed : (v.inode k).type ≠ 0 := by
    rw [slotV]
    exact fun null => alive.2 (agrees.type.symm.trans null)
  have roots : liveRoots sb v k = liveRoots sb u k := by
    funext root
    simp only [liveRoots, slotV, slotU, disk]
  have small : ∀ j < NADDRS, addrs j < 2 ^ 32 := by
    intro j slot
    by_cases null : addrs j = 0
    · rw [null]
      decide
    have root : blockAt sb u k ((((s.inode k).inum, j), []) : Place Root) = addrs j := by
      simp [blockAt, target, liveRoots, slotU, slot]
    have range := wrote.owns.dataAt (x := (((s.inode k).inum, j), [])) ⟨Nat.zero_le _, by simp⟩
      (by rw [root]; exact null)
    rw [root] at range
    have := sb.small
    omega
  have fits : (v.inode k).Fits := by
    have old := fits_dinode sb s.disk (s.inode k).inum
    have limit : MAXFILE * BSIZE < 2 ^ 32 := by decide
    rw [slotV]
    exact ⟨agrees.type ▸ old.type, agrees.major ▸ old.major, agrees.minor ▸ old.minor,
      agrees.nlink ▸ old.nlink, Nat.lt_of_le_of_lt bound limit, small⟩
  have inum : (v.inode k).inum = (s.inode k).inum := by rw [slotV]
  have self : (dinode sb (storeInode sb v (v.inode k).inum (v.inode k).toDinode).disk
      (s.inode k).inum).Same (v.inode k).toDinode := by
    rw [← inum]
    exact dinode_storeInode_self sb v (v.inode k).inum fits
  refine ⟨inv, opened, wrote, offset, bound, ?_, ?_, ?_, ?_, ⟨alive.1, ?_⟩, ?_, ?_, ?_⟩
  · intro x valid
    unfold fileBlock blockAt
    rw [diskRoots_iupdate inside fits (.inl typed), roots, ← disk]
    exact target_storeInode (disk ▸ wrote.owns) inside _ valid
  · intro c lower
    rw [← disk]
    exact storeInode_others v inside _ lower
  · intro other bound apart
    have stored := dinode_storeInode_ne sb v (v.inode k).toDinode (show other ≠ _ from inum ▸ apart)
    have low : dinode sb v.disk other = dinode sb s.disk other :=
      dinode_congr other (by rw [disk]; exact wrote.low _ (iblock_lt sb bound))
    rw [low] at stored
    exact stored
  · exact (self.size.trans (by rw [slotV])).trans (Nat.max_eq_right (Nat.le_of_lt grows)).symm
  · exact fun null => typed (self.type.symm.trans null)
  · exact self.symm
  · intro j apart
    rw [storeInode_inode, ← after, setInode_inode, update_of_ne apart, inode, update_of_ne apart]
  · exact ⟨off + n, addrs, slotV⟩

/-- The size stays: all blocks were there and `iupdate` is not called. -/
theorem finished_same (stays : off + n ≤ (s.inode k).size) : Finished sb k off n src s u u := by
  obtain ⟨alive, agrees⟩ := inv.loaded k opened
  have inode : u.inode = s.inode := wrote.still fun i _ upper => (inv.mapped opened (by omega)).2
  have dinodes : ∀ inum < sb.ninodes, dinode sb u.disk inum = dinode sb s.disk inum :=
    fun inum inside => dinode_congr inum (wrote.low _ (iblock_lt sb inside))
  have alive' : Live sb u.disk (s.inode k).inum := by
    refine ⟨alive.1, ?_⟩
    rw [dinodes _ alive.1]
    exact alive.2
  have agrees' : (u.inode k).toDinode.Same (dinode sb u.disk (s.inode k).inum) := by
    rw [inode, dinodes _ alive.1]
    exact agrees
  refine ⟨inv, opened, wrote, offset, bound, ?_, fun _ _ => rfl, ?_, ?_, alive', agrees', ?_, ?_⟩
  · intro x _
    unfold fileBlock blockAt
    rw [liveRoots_of_loaded (by rw [inode]; exact alive')
      (by rw [inode] at agrees' ⊢; exact agrees')]
  · intro inum inside _
    rw [dinodes inum inside]
    exact Dinode.Same.refl _
  · rw [dinodes _ alive.1, ← agrees.size, Nat.max_eq_left stays]
  · intro j _
    rw [inode]
  · exact ⟨(s.inode k).size, (s.inode k).addrs, by rw [inode]⟩

end

section

variable (inv : Inv sb s) (opened : Open s k) (file : (s.inode k).type ≠ T_DEV)
    (offset : off ≤ (s.inode k).size) (bound : off + n ≤ MAXFILE * BSIZE)
include inv opened file offset bound

theorem writei_finished :
    Ends Panic.Full (fun r => r.2 = some n ∧ ∃ u, Finished sb k off n src s u r.1)
      (writei sb devsw s k src off n) := by
  have limit : MAXFILE * BSIZE < 2 ^ 32 := by decide
  unfold writei
  rw [Nat.mod_eq_of_lt (by omega), if_neg file, if_neg (by omega), if_neg (by omega)]
  refine (writeiLoop_ends src n n (inv.liveOwns opened) (by omega) (by omega)).bind ?_
  rintro ⟨u, last⟩ ⟨wrote, ends⟩
  simp only [Nat.sub_zero, Nat.zero_add] at wrote ends ⊢
  subst ends
  obtain ⟨addrs, inode⟩ := wrote.inode
  have size : (u.inode k).size = (s.inode k).size := by rw [inode, update_self]
  split
  · rename_i grows
    refine (logWrite_ends sb _ _ _).bind ?_
    rintro t rfl
    exact ⟨rfl, u, finished_grown inv opened wrote offset bound (by omega)⟩
  · rename_i stays
    exact ⟨rfl, u, finished_same inv opened wrote offset bound (by omega)⟩

/-- `writei` on a file writes all bytes, unless `balloc` finds no free block. -/
theorem writei_ends :
    Ends Panic.Full
      (fun r => r.2 = some n ∧ Stored sb k off ((List.range n).map src) s r.1)
      (writei sb devsw s k src off n) :=
  (writei_finished inv opened file offset bound).mono fun _ ⟨all, _, done⟩ => ⟨all, done.stored⟩

end

/-- `writei` changes nothing, or the whole write is done. -/
theorem writei_eq_ok {r : Option Nat} (inv : Inv sb s) (opened : Open s k) (offWord : off < 2 ^ 32)
    (word : n < 2 ^ 32) (ran : writei sb devsw s k src off n = .ok (t, r)) :
    t = s ∨ ∃ u, Finished sb k off n src s u t := by
  by_cases refused : (s.inode k).type = T_DEV ∨ off > (s.inode k).size ∨ (off + n) % 2 ^ 32 < off ∨
      (off + n) % 2 ^ 32 > MAXFILE * BSIZE
  · left
    unfold writei at ran
    dsimp only at ran
    split at ran
    · split at ran
      · cases ran
        rfl
      · cases ran
        rfl
    · rename_i file
      split at ran
      · cases ran
        rfl
      · rw [if_pos (by omega)] at ran
        cases ran
        rfl
  · exact .inr ((writei_finished inv opened (by omega) (show off ≤ _ by omega)
      (show off + n ≤ _ by omega)).of_ok ran).2

end Writei

end Xv6.Fs
