import Xv6.Fs.Bmap

/- The loop of `writei`: it stores the bytes of `src` and touches nothing else. -/
namespace Xv6.Fs

open Function Bytes Forest Outcome

variable {sb : Superblock} {s t u : State} {k : Nat}

/-- Block `bn` of the file in slot `k` exists. -/
def Mapped (sb : Superblock) (s : State) (k bn : Nat) : Prop :=
  blockAt sb s k (place (s.inode k).inum bn) ≠ 0

/-- The byte at offset `i` of the file in slot `k`. -/
def byteAt (sb : Superblock) (s : State) (k i : Nat) : UInt8 :=
  s.disk (blockAt sb s k (place (s.inode k).inum (i / BSIZE))) (i % BSIZE)

/-- `t` is `s` with the bytes of `src` at `[off, off + n)` of the file in slot `k`. -/
structure Wrote (sb : Superblock) (k off n : Nat) (src : Nat → UInt8) (s t : State) : Prop
    extends Grows sb k s t where
  foreign : ∀ x, shape.Valid x → x.2.length = shape.depth x.1 → x.1.1 ≠ (s.inode k).inum →
    blockAt sb s k x ≠ 0 → t.disk (blockAt sb s k x) = s.disk (blockAt sb s k x)
  mapped : ∀ i, off ≤ i → i < off + n → Mapped sb t k (i / BSIZE)
  bytes : ∀ i, off ≤ i → i < off + n → byteAt sb t k i = src (i - off)
  rest : ∀ i < MAXFILE * BSIZE, i < off ∨ off + n ≤ i → Mapped sb s k (i / BSIZE) →
    byteAt sb t k i = byteAt sb s k i
  still : (∀ i, off ≤ i → i < off + n → Mapped sb s k (i / BSIZE)) → t.inode = s.inode

theorem Wrote.refl (owns : Owns sb (liveRoots sb s k) s.disk) (off : Nat) (src : Nat → UInt8) :
    Wrote sb k off 0 src s s :=
  ⟨Grows.refl owns, fun _ _ _ _ _ => rfl, by omega, by omega, fun _ _ _ _ => rfl, fun _ => rfl⟩

theorem div_lt_maxfile {i : Nat} (inside : i < MAXFILE * BSIZE) : i / BSIZE < MAXFILE :=
  Nat.div_lt_of_lt_mul (Nat.mul_comm MAXFILE BSIZE ▸ inside)

theorem Grows.mapped (grown : Grows sb k s t) {bn : Nat} (inside : bn < MAXFILE)
    (present : Mapped sb s k bn) : Mapped sb t k bn := by
  unfold Mapped at present ⊢
  rw [grown.inum, grown.keeps _ (place_valid _ inside).1 present]
  exact present

theorem Wrote.append {off m n : Nat} {src : Nat → UInt8} (first : Wrote sb k off m src s t)
    (second : Wrote sb k (off + m) n (fun i => src (m + i)) t u)
    (inside : off + m + n ≤ MAXFILE * BSIZE) : Wrote sb k off (m + n) src s u := by
  have same := first.inum
  refine ⟨first.toGrows.trans second.toGrows, ?_, ?_, ?_, ?_, ?_⟩
  · intro x valid leaf other present
    have kept := first.keeps x valid present
    have later := second.foreign x valid leaf (same ▸ other) (kept ▸ present)
    rw [kept] at later
    rw [later, first.foreign x valid leaf other present]
  · intro i lower upper
    by_cases early : i < off + m
    · exact second.toGrows.mapped (div_lt_maxfile (by omega)) (first.mapped i lower early)
    · exact second.mapped i (by omega) (by omega)
  · intro i lower upper
    by_cases early : i < off + m
    · rw [second.rest i (by omega) (.inl early) (first.mapped i lower early)]
      exact first.bytes i lower early
    · rw [second.bytes i (by omega) (by omega)]
      congr 1
      omega
  · intro i bound outside present
    have later := first.toGrows.mapped (div_lt_maxfile bound) present
    rw [second.rest i bound (by omega) later, first.rest i bound (by omega) present]
  · intro present
    have before := first.still fun i lower upper => present i lower (by omega)
    rw [second.still fun i lower upper => ?_, before]
    exact first.toGrows.mapped (div_lt_maxfile (by omega)) (present i (by omega) (by omega))

section Leaf

variable {x : Place Root} (data : Block)

section

variable (owns : Owns sb (liveRoots sb t k) t.disk) (validX : shape.Valid x)
    (leaf : x.2.length = shape.depth x.1) (present : blockAt sb t k x ≠ 0)
include owns validX leaf present

theorem blockAt_leaf {y : Place Root} (valid : shape.Valid y) :
    blockAt sb (t.store (blockAt sb t k x) data) k y = blockAt sb t k y := by
  have range := owns.dataAt validX present
  have order := bmapstart_lt sb
  have roots : liveRoots sb (t.store (blockAt sb t k x) data) k = liveRoots sb t k :=
    liveRoots_congr rfl fun c below =>
      update_of_ne (show c ≠ blockAt sb t k x by omega) _ _
  unfold blockAt at *
  rw [roots]
  refine target_congr (fun z validZ inner presentZ i _ => ?_) valid
  have apart : target (pointer t.disk) (liveRoots sb t k) z ≠
      target (pointer t.disk) (liveRoots sb t k) x := by
    intro same
    have equal := owns.exclusive z x validZ validX presentZ same
    subst equal
    exact absurd leaf (Nat.ne_of_lt inner)
  simp only [pointer, store_disk, update_of_ne apart]

theorem grows_leaf : Grows sb k t (t.store (blockAt sb t k x) data) := by
  have range := owns.dataAt validX present
  have order := bmapstart_lt sb
  have moved := fun (y : Place Root) (valid : shape.Valid y) =>
    blockAt_leaf data owns validX leaf present valid
  have low : ∀ c < sb.dataStart, (t.store (blockAt sb t k x) data).disk c = t.disk c :=
    fun c below => update_of_ne (show c ≠ blockAt sb t k x by omega) _ _
  have marks : ∀ c < sb.size,
    inUse sb (t.store (blockAt sb t k x) data).disk c = inUse sb t.disk c :=
    fun c inside => inUse_congr (fun d _ below => low d below) inside
  refine ⟨⟨(t.inode k).addrs, (update_eq_self k t.inode).symm⟩, owns.congr moved marks,
    fun y valid _ => moved y valid, fun y valid _ => moved y valid,
    fun c below => low c (by omega), fun c inside used => .inl ?_⟩
  rwa [marks c inside] at used

end

end Leaf

/-- One iteration of the loop: `bmap`, then the store into one data block. -/
theorem wrote_chunk {off m : Nat} (src : Nat → UInt8) {r : State × Nat}
    (arrives : Arrives sb k s (place (s.inode k).inum (off / BSIZE)) r)
    (same : Mapped sb s k (off / BSIZE) → r.1 = s) (pos : 0 < m) (within : off % BSIZE + m ≤ BSIZE)
    (inside : off + m ≤ MAXFILE * BSIZE) :
    Wrote sb k off m src s (r.1.store r.2 (splice (r.1.disk r.2) (off % BSIZE) m src)) := by
  obtain ⟨t, addr⟩ := r
  obtain ⟨grown, nonzero, here⟩ := arrives
  dsimp only at *
  subst here
  have block : off / BSIZE < MAXFILE := div_lt_maxfile (by omega)
  obtain ⟨validX, leafX, _⟩ := place_valid (s.inode k).inum block
  generalize bytes : splice (t.disk (blockAt sb t k (place (s.inode k).inum (off / BSIZE))))
    (off % BSIZE) m src = data
  have second := grows_leaf data grown.owns validX leafX nonzero
  have moved := fun (y : Place Root) (valid : shape.Valid y) =>
    blockAt_leaf data grown.owns validX leafX nonzero valid
  have total := grown.toGrows.trans second
  -- where the blocks of this file are now, and what they hold
  have other : ∀ y, shape.Valid y → y ≠ place (s.inode k).inum (off / BSIZE) →
      blockAt sb s k y ≠ 0 →
        blockAt sb s k y ≠ blockAt sb t k (place (s.inode k).inum (off / BSIZE)) := by
    intro y valid apart present equal
    have kept := grown.keeps y valid present
    rw [← kept] at present equal
    exact apart (grown.owns.inj valid validX present equal)
  have inBlock : ∀ i, i / BSIZE = off / BSIZE →
      byteAt sb (t.store (blockAt sb t k (place (s.inode k).inum (off / BSIZE))) data) k i =
        data (i % BSIZE) := by
    intro i sameBlock
    unfold byteAt
    rw [total.inum, sameBlock, moved _ validX, store_disk, update_self]
  refine ⟨total, ?_, ?_, ?_, ?_, ?_⟩
  · intro y valid leaf foreign present
    have apart : y ≠ place (s.inode k).inum (off / BSIZE) := by
      rintro rfl
      exact foreign (place_inum _ _)
    rw [store_disk, update_of_ne (other y valid apart present)]
    exact grown.leaves valid leaf present
  · intro i lower upper
    have sameBlock : i / BSIZE = off / BSIZE := by
      simp only [BSIZE] at within ⊢
      omega
    unfold Mapped
    rw [total.inum, sameBlock, moved _ validX]
    exact nonzero
  · intro i lower upper
    have sameBlock : i / BSIZE = off / BSIZE := by
      simp only [BSIZE] at within ⊢
      omega
    rw [inBlock i sameBlock, ← bytes, splice, if_pos (by simp only [BSIZE] at *; omega)]
    congr 1
    simp only [BSIZE] at *
    omega
  · intro i bound outside present
    obtain ⟨validI, leafI, _⟩ := place_valid (s.inode k).inum (div_lt_maxfile bound)
    by_cases sameBlock : i / BSIZE = off / BSIZE
    · rw [inBlock i sameBlock, ← bytes, splice, if_neg (by simp only [BSIZE] at *; omega)]
      unfold Mapped at present
      rw [sameBlock] at present
      unfold byteAt
      rw [sameBlock, grown.keeps _ validX present, grown.leaves validX leafX present]
    · have apart : place (s.inode k).inum (i / BSIZE) ≠ place (s.inode k).inum (off / BSIZE) :=
        fun equal => sameBlock (place_inj (div_lt_maxfile bound) block equal).2
      unfold byteAt
      rw [total.inum, total.keeps _ validI present, store_disk,
        update_of_ne (other _ validI apart present), grown.leaves validI leafI present]
  · intro present
    rw [store_inode, same (present off (Nat.le_refl _) (by omega))]

/-- The loop of `writei` writes all of `src`, unless `balloc` finds no free block. -/
theorem writeiLoop_ends (src : Nat → UInt8) (n fuel : Nat) {tot off : Nat}
    (owns : Owns sb (liveRoots sb s k) s.disk) (enough : n - tot ≤ fuel)
    (inside : off + (n - tot) ≤ MAXFILE * BSIZE) :
    Ends Panic.Full (fun r =>
        Wrote sb k off (n - tot) (fun i => src (tot + i)) s r.1 ∧ r.2 = off + (n - tot))
      (writeiLoop sb k src n fuel s tot off) := by
  induction fuel generalizing s tot off with
  | zero =>
    obtain none_left : n - tot = 0 := by omega
    rw [none_left]
    exact ⟨Wrote.refl owns off _, rfl⟩
  | succ fuel ih =>
    unfold writeiLoop
    split
    · rename_i more
      have block : off / BSIZE < MAXFILE := div_lt_maxfile (by omega)
      refine (bmap_spec owns block).bind ?_
      rintro ⟨t, addr⟩ ⟨arrives, same⟩
      dsimp only
      generalize chunk : min (n - tot) (BSIZE - off % BSIZE) = m
      have part : off % BSIZE < BSIZE := Nat.mod_lt _ (by decide)
      have within : off % BSIZE + m ≤ BSIZE ∧ 0 < m ∧ m ≤ n - tot := by
        simp only [BSIZE] at part chunk ⊢
        omega
      obtain ⟨within, pos, fits⟩ := within
      have first := wrote_chunk (fun i => src (tot + i)) arrives same pos within (by omega)
      refine (logWrite_ends sb t addr _).bind ?_
      rintro v rfl
      refine (ih first.owns (by omega) (by omega)).mono ?_
      rintro ⟨u, last⟩ ⟨second, ends⟩
      dsimp only at *
      have whole : m + (n - (tot + m)) = n - tot := by omega
      have shifted : (fun i => src (tot + m + i)) = fun i => src (tot + (m + i)) := by
        funext i
        rw [Nat.add_assoc]
      rw [shifted] at second
      have joined := first.append second (by omega)
      rw [whole] at joined
      exact ⟨joined, by omega⟩
    · rename_i done
      obtain none_left : n - tot = 0 := by omega
      rw [none_left]
      exact ⟨Wrote.refl owns off _, rfl⟩

end Xv6.Fs
