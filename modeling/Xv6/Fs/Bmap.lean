import Xv6.Fs.Tree

/- `bmap` only adds empty blocks to the file: every block that has a place keeps it. -/
namespace Xv6.Fs

open Function Bytes Forest Outcome List

variable {sb : Superblock} {s t u : State} {k : Nat}
    {x y : Place Root} {i bn : Nat} {root : Root} {path : List Nat}

/-- The block at a place, while the inode in slot `k` is being changed. -/
def blockAt (sb : Superblock) (s : State) (k : Nat) (x : Place Root) : Nat :=
  target (pointer s.disk) (liveRoots sb s k) x

/-- `t` is `s` with more blocks in the file of slot `k`. -/
structure Grows (sb : Superblock) (k : Nat) (s t : State) : Prop where
  inode : ∃ addrs, t.inode = update s.inode k { s.inode k with addrs := addrs }
  owns : Owns sb (liveRoots sb t k) t.disk
  keeps : ∀ x, shape.Valid x → blockAt sb s k x ≠ 0 → blockAt sb t k x = blockAt sb s k x
  others : ∀ x, shape.Valid x → x.1.1 ≠ (s.inode k).inum → blockAt sb t k x = blockAt sb s k x
  low : ∀ c < sb.bmapstart, t.disk c = s.disk c
  accounted : ∀ c < sb.size, inUse sb t.disk c = true →
    inUse sb s.disk c = true ∨ c ≠ 0 ∧ ∃ x, shape.Valid x ∧ blockAt sb t k x = c

/-- A new block below the one at `x`. -/
def NewChild (sb : Superblock) (k : Nat) (s t : State) (x : Place Root) (i : Nat) : Prop :=
  shape.Valid (x.1, x.2 ++ [i]) ∧ blockAt sb s k (x.1, x.2 ++ [i]) = 0 ∧
    blockAt sb t k (x.1, x.2 ++ [i]) ≠ 0

/-- Moreover a block that was there is written, and logged, just when it has a new child. -/
structure Extends (sb : Superblock) (k : Nat) (s t : State) : Prop extends Grows sb k s t where
  written : ∀ x, shape.Valid x → blockAt sb s k x ≠ 0 →
    (∃ i, NewChild sb k s t x i) ∧ blockAt sb s k x ∈ t.lh ∨
    (∀ i, ¬ NewChild sb k s t x i) ∧ t.disk (blockAt sb s k x) = s.disk (blockAt sb s k x) ∧
      (blockAt sb s k x ∈ t.lh ↔ blockAt sb s k x ∈ s.lh)

section

variable (owns : Owns sb (liveRoots sb s k) s.disk) (valid : shape.Valid x)
    (present : blockAt sb s k x ≠ 0)
include owns valid present

theorem Owns.dataAt : sb.dataStart ≤ blockAt sb s k x ∧ blockAt sb s k x < sb.size :=
  owns.data x valid present

theorem Owns.markedAt : inUse sb s.disk (blockAt sb s k x) = true := owns.marked x valid present

end

theorem Owns.inj (owns : Owns sb (liveRoots sb s k) s.disk) (validX : shape.Valid x)
    (validY : shape.Valid y) (present : blockAt sb s k x ≠ 0)
    (same : blockAt sb s k x = blockAt sb s k y) : x = y :=
  owns.exclusive x y validX validY present same

theorem Grows.inum (grown : Grows sb k s t) : (t.inode k).inum = (s.inode k).inum := by
  obtain ⟨addrs, same⟩ := grown.inode
  rw [same, update_self]

theorem Grows.refl (owns : Owns sb (liveRoots sb s k) s.disk) : Grows sb k s s := by
  refine ⟨⟨(s.inode k).addrs, ?_⟩, owns, fun _ _ _ => rfl, fun _ _ _ => rfl, fun _ _ => rfl,
    fun c _ used => .inl used⟩
  exact (update_eq_self k s.inode).symm

theorem Extends.refl (owns : Owns sb (liveRoots sb s k) s.disk) : Extends sb k s s :=
  ⟨Grows.refl owns, fun _ _ _ => .inr ⟨fun _ new => new.2.2 new.2.1, rfl, Iff.rfl⟩⟩

theorem Grows.trans (first : Grows sb k s t) (second : Grows sb k t u) : Grows sb k s u := by
  refine ⟨?_, second.owns, ?_, ?_, ?_, ?_⟩
  · obtain ⟨_, one⟩ := first.inode
    obtain ⟨addrs, two⟩ := second.inode
    refine ⟨addrs, ?_⟩
    rw [two, one, update_self, update_idem]
  · intro x valid present
    have kept := first.keeps x valid present
    rw [second.keeps x valid (kept ▸ present), kept]
  · intro x valid other
    rw [second.others x valid (first.inum ▸ other), first.others x valid other]
  · intro c below
    rw [second.low c below, first.low c below]
  · intro c inside used
    rcases second.accounted c inside used with before | placed
    · rcases first.accounted c inside before with old | ⟨nonzero, x, valid, here⟩
      · exact .inl old
      · refine .inr ⟨nonzero, x, valid, ?_⟩
        rw [second.keeps x valid (here ▸ nonzero), here]
    · exact .inr placed

theorem Extends.trans (first : Extends sb k s t) (second : Extends sb k t u) :
    Extends sb k s u := by
  refine ⟨first.toGrows.trans second.toGrows, fun x valid present => ?_⟩
  have kept := first.keeps x valid present
  have later := second.written x valid (kept ▸ present)
  rw [kept] at later
  rcases first.written x valid present with ⟨⟨i, inside, null, there⟩, logged⟩ | ⟨none, disk, lh⟩
  · refine .inl ⟨⟨i, inside, null, ?_⟩, ?_⟩
    · rw [second.keeps _ inside there]
      exact there
    · exact later.elim And.right fun rest => rest.2.2.mpr logged
  -- a child that is new in the end was new in one of the steps
  have before : ∀ {i}, NewChild sb k s u x i → NewChild sb k t u x i := fun new =>
    ⟨new.1, by_contra fun there => none _ ⟨new.1, new.2.1, there⟩, new.2.2⟩
  rcases later with ⟨⟨i, inside, null, there⟩, logged⟩ | ⟨none', disk', lh'⟩
  · refine .inl ⟨⟨i, inside, ?_, there⟩, logged⟩
    by_contra present'
    exact present' ((first.keeps _ inside present').symm.trans null)
  · exact .inr ⟨fun i new => none' i (before new), disk'.trans disk, lh'.trans lh⟩

theorem Extends.leaves (grown : Extends sb k s t) (valid : shape.Valid x)
    (leaf : x.2.length = shape.depth x.1) (present : blockAt sb s k x ≠ 0) :
    t.disk (blockAt sb s k x) = s.disk (blockAt sb s k x) := by
  rcases grown.written x valid present with ⟨⟨i, inside, _⟩, _⟩ | ⟨_, same, _⟩
  · exact absurd leaf (Nat.ne_of_lt inside.init.2.1)
  · exact same

section Allocate

variable {b : Nat}

theorem diskRoots_congr {left right : Nat → Block} (low : ∀ c < sb.bmapstart, left c = right c) :
    diskRoots sb left = diskRoots sb right := by
  funext root
  unfold diskRoots
  by_cases inside : root.1 < sb.ninodes
  · have same := dinode_congr root.1 (low _ (iblock_lt sb inside))
    have live : Live sb left root.1 ↔ Live sb right root.1 := by simp only [Live, same]
    simp only [live, same]
  · have dead : ∀ disk, ¬ Live sb disk root.1 := fun disk live => inside live.1
    simp only [dead, false_and, if_false]

/-- The roots depend on the slots and on the blocks in front of the free map. -/
theorem liveRoots_congr (inode : t.inode = s.inode)
    (low : ∀ c < sb.bmapstart, t.disk c = s.disk c) :
    liveRoots sb t k = liveRoots sb s k := by
  have disk : diskRoots sb t.disk = diskRoots sb s.disk := diskRoots_congr low
  funext root
  simp only [liveRoots, inode, disk]

section

variable (owns : Owns sb (liveRoots sb s k) s.disk) (allocated : Allocated sb s t b)
include owns allocated

theorem blockAt_alloc (valid : shape.Valid x) : blockAt sb t k x = blockAt sb s k x := by
  have low : ∀ c < sb.bmapstart, t.disk c = s.disk c := by
    intro c below
    have bound := bmapstart_lt sb
    have data := allocated.data owns.metadata
    exact allocated.others c (by omega) (.inl below)
  unfold blockAt
  rw [liveRoots_congr allocated.inode low]
  refine target_congr (fun y validY _ present i _ => ?_) valid
  have apart : target (pointer s.disk) (liveRoots sb s k) y ≠ b := by
    intro same
    have used := owns.marked y validY present
    rw [same, allocated.free] at used
    cases used
  simp only [pointer, allocated.others _ apart (.inr (owns.data y validY present).1)]

theorem Owns.fresh (valid : shape.Valid y) : blockAt sb s k y ≠ b := by
  intro same
  have nonzero : b ≠ 0 := by
    have data := allocated.data owns.metadata
    have := dataStart_pos sb
    omega
  have used := owns.markedAt valid (by rw [same]; exact nonzero)
  rw [same, allocated.free] at used
  cases used

/-- `balloc` followed by one store of the new block number, in the inode or an index block. -/
theorem extends_of_link (mine : x.1.1 = (s.inode k).inum) (validX : shape.Valid x)
    (free : blockAt sb s k x = 0)
    (inode : ∃ addrs, u.inode = update s.inode k { s.inode k with addrs := addrs })
    (grown : ∀ y, shape.Valid y → blockAt sb u k y = if y = x then b else blockAt sb s k y)
    (logged : ∀ y i, x = (y.1, y.2 ++ [i]) → blockAt sb s k y ∈ u.lh)
    (rest : ∀ y, shape.Valid y → blockAt sb s k y ≠ 0 → (∀ i, x ≠ (y.1, y.2 ++ [i])) →
      u.disk (blockAt sb s k y) = t.disk (blockAt sb s k y) ∧
        (blockAt sb s k y ∈ u.lh ↔ blockAt sb s k y ∈ t.lh))
    (low : ∀ c < sb.dataStart, u.disk c = t.disk c) : Extends sb k s u := by
  have data := allocated.data owns.metadata
  have pos := dataStart_pos sb
  have marks : ∀ c < sb.size, inUse sb u.disk c = (decide (c = b) || inUse sb s.disk c) := by
    intro c inside
    rw [← allocated.marks c inside]
    exact inUse_congr (fun d _ below => low d below) inside
  have fresh := fun y (valid : shape.Valid y) => owns.fresh allocated valid
  refine ⟨⟨inode, ⟨owns.exclusive.grow fresh grown, ?_, ?_, ?_⟩, ?_, ?_, ?_, ?_⟩, ?_⟩
  · intro y valid present
    have here : target (pointer u.disk) (liveRoots sb u k) y = _ := grown y valid
    rw [here] at present ⊢
    split
    · exact ⟨data, allocated.inside⟩
    · rename_i other
      rw [if_neg other] at present
      exact owns.dataAt valid present
  · intro y valid present
    have here : target (pointer u.disk) (liveRoots sb u k) y = _ := grown y valid
    rw [here] at present ⊢
    split
    · rw [marks _ allocated.inside]
      simp
    · rename_i other
      rw [if_neg other] at present
      rw [marks _ (owns.dataAt valid present).2, owns.markedAt valid present, Bool.or_true]
  · intro c below
    rw [marks c (by have := allocated.inside; omega), owns.metadata c below, Bool.or_true]
  · intro y valid present
    rw [grown y valid, if_neg]
    rintro rfl
    exact present free
  · intro y valid other
    rw [grown y valid, if_neg]
    rintro rfl
    exact other mine
  · intro c below
    have bound := bmapstart_lt sb
    rw [low c (by omega)]
    exact allocated.others c (by omega) (.inl below)
  · intro c inside used
    rw [marks c inside, Bool.or_eq_true, decide_eq_true_eq] at used
    rcases used with rfl | old
    · exact .inr ⟨by omega, x, validX, by rw [grown x validX, if_pos rfl]⟩
    · exact .inl old
  · intro y valid present
    by_cases parent : ∃ i, x = (y.1, y.2 ++ [i])
    · obtain ⟨i, here⟩ := parent
      refine .inl ⟨⟨i, ?_⟩, logged y i here⟩
      rw [NewChild, ← here, grown x validX, if_pos rfl]
      exact ⟨validX, free, by omega⟩
    · have high := (owns.dataAt valid present).1
      obtain ⟨disk, lh⟩ := rest y valid present (not_exists.mp parent)
      refine .inr ⟨fun i new => ?_, ?_, ?_⟩
      · obtain ⟨inside, null, there⟩ := new
        rw [grown _ inside, if_neg fun here => parent ⟨i, here.symm⟩] at there
        exact there null
      · exact disk.trans (allocated.others _ (fresh y valid) (.inr high))
      · exact lh.trans (allocated.lh _ (fresh y valid) high)

end

end Allocate

/-- What a step of `bmap` returns: the block that is at the place now. -/
def Arrives (sb : Superblock) (k : Nat) (s : State) (x : Place Root) (r : State × Nat) : Prop :=
  Extends sb k s r.1 ∧ r.2 ≠ 0 ∧ blockAt sb r.1 k x = r.2

theorem rootEntry_ends (owns : Owns sb (liveRoots sb s k) s.disk) {j : Nat} (inside : j < NADDRS) :
    Ends Panic.Full (Arrives sb k s (((s.inode k).inum, j), [])) (rootEntry sb s k j) := by
  have here : liveRoots sb s k ((s.inode k).inum, j) = (s.inode k).addrs j := by
    simp [liveRoots, inside]
  unfold rootEntry
  split
  · rename_i null
    refine (balloc_ends owns.metadata).bind ?_
    rintro ⟨t, b⟩ allocated
    dsimp only at allocated ⊢
    have data := allocated.data owns.metadata
    have pos := dataStart_pos sb
    have validX : shape.Valid (((s.inode k).inum, j), []) := ⟨Nat.zero_le _, by simp⟩
    have grown : ∀ y, shape.Valid y →
        blockAt sb (t.setInode k { t.inode k with addrs := update (t.inode k).addrs j b }) k y =
          if y = (((s.inode k).inum, j), []) then b else blockAt sb s k y := by
      intro y valid
      rw [← blockAt_alloc owns allocated valid]
      have roots : liveRoots sb
          (t.setInode k { t.inode k with addrs := update (t.inode k).addrs j b }) k =
          update (liveRoots sb t k) ((s.inode k).inum, j) b := by
        funext root
        by_cases same : root = ((s.inode k).inum, j)
        · subst same
          simp [liveRoots, allocated.inode, inside]
        rw [update_of_ne same]
        simp only [liveRoots, setInode_inode, update_self, setInode_disk, allocated.inode]
        split
        · rename_i mine
          have other : root.2 ≠ j := fun equal => same (Prod.ext mine equal)
          simp only [update_of_ne other]
        · rfl
      unfold blockAt
      rw [roots]
      refine target_linkRoot ?_ (fun i _ => ?_) valid
      · simp [liveRoots, allocated.inode, inside, null]
      · simp only [pointer, setInode_disk, allocated.empty, getWord_zero]
    refine ⟨extends_of_link owns allocated rfl validX (here.trans null) ?_ grown
      (fun y i here => by simp at here) (fun _ _ _ _ => ⟨rfl, Iff.rfl⟩) (fun _ _ => rfl), by omega,
      ?_⟩
    · exact ⟨update (s.inode k).addrs j b, by simp only [setInode_inode, allocated.inode]⟩
    · rw [grown _ validX, if_pos rfl]
  · rename_i present
    exact ⟨Extends.refl owns, present, here⟩

theorem indexEntry_ends (owns : Owns sb (liveRoots sb s k) s.disk) {node : Nat}
    (mine : root.1 = (s.inode k).inum) (valid : shape.Valid (root, path ++ [i]))
    (here : blockAt sb s k (root, path) = node) (nonzero : node ≠ 0) :
    Ends Panic.Full (Arrives sb k s (root, path ++ [i])) (indexEntry sb s node i) := by
  obtain ⟨validPath, _⟩ := valid.init
  have entry : blockAt sb s k (root, path ++ [i]) = getWord (s.disk node) i := by
    have snoc := target_snoc (pointer s.disk) (liveRoots sb s k) root path i
    unfold blockAt at here ⊢
    rw [snoc, here, if_neg nonzero]
    rfl
  have nodeData : sb.dataStart ≤ node ∧ node < sb.size := by
    rw [← here] at nonzero ⊢
    exact owns.dataAt validPath nonzero
  unfold indexEntry
  split
  · rename_i null
    refine (balloc_ends owns.metadata).bind ?_
    rintro ⟨t, b⟩ allocated
    dsimp only at allocated ⊢
    have data := allocated.data owns.metadata
    have pos := dataStart_pos sb
    have small : b < 2 ^ 32 := by
      have := sb.small
      have := allocated.inside
      omega
    have apart : node ≠ b := fun same => owns.fresh allocated validPath (here.trans same)
    have tHere : blockAt sb t k (root, path) = node := by
      rw [blockAt_alloc owns allocated validPath, here]
    have low : ∀ c < sb.dataStart, (t.store node (setWord (t.disk node) i b)).disk c = t.disk c :=
      fun c below => update_of_ne (show c ≠ node by omega) _ _
    have roots : liveRoots sb (t.store node (setWord (t.disk node) i b)) k = liveRoots sb t k := by
      have bound := bmapstart_lt sb
      exact liveRoots_congr rfl (fun c below => low c (by omega))
    have exclusive : Exclusive shape (pointer t.disk) (liveRoots sb t k) := by
      intro x y validX validY nonnull same
      have moveX : target (pointer t.disk) (liveRoots sb t k) x = _ :=
        blockAt_alloc owns allocated validX
      have moveY : target (pointer t.disk) (liveRoots sb t k) y = _ :=
        blockAt_alloc owns allocated validY
      rw [moveX] at nonnull same
      rw [moveY] at same
      exact owns.inj validX validY nonnull same
    have grown : ∀ y, shape.Valid y → blockAt sb (t.store node (setWord (t.disk node) i b)) k y =
          if y = (root, path ++ [i]) then b else blockAt sb s k y := by
      intro y validY
      rw [← blockAt_alloc owns allocated validY]
      unfold blockAt
      rw [roots]
      refine target_link exclusive valid ?_ ?_ ?_ ?_ ?_ validY
      · exact fun equal => nonzero (tHere.symm.trans equal)
      · exact (blockAt_alloc owns allocated valid).trans (entry.trans null)
      · intro z validZ same
        exact owns.fresh allocated validZ ((blockAt_alloc owns allocated validZ).symm.trans same)
      · intro j _
        simp only [pointer, allocated.empty, getWord_zero]
      intro c j
      rw [show target (pointer t.disk) (liveRoots sb t k) (root, path) = node from tHere]
      by_cases same : c = node
      · subst same
        simp only [pointer, store_disk, update_self, true_and, getWord_setWord _ _ _ _ small]
      · simp only [pointer, store_disk, update_of_ne same, same, false_and, if_false]
    refine (logWrite_ends sb t node _).bind ?_
    rintro u rfl
    refine ⟨extends_of_link owns allocated mine valid (entry.trans null) ?_ grown ?_ ?_ low,
      by omega, by rw [grown _ valid, if_pos rfl]⟩
    · refine ⟨(s.inode k).addrs, ?_⟩
      rw [store_inode, allocated.inode]
      exact (update_eq_self k s.inode).symm
    · intro y j child
      obtain ⟨rfl, same⟩ := Prod.mk.inj child
      obtain ⟨rfl, _⟩ := append_inj' same rfl
      rw [mem_store_lh]
      exact .inr here
    · intro y validY placed apart
      have other : blockAt sb s k y ≠ node := by
        intro same
        have equal := owns.inj validY validPath placed (same.trans here.symm)
        exact apart i (by rw [equal])
      exact ⟨update_of_ne other _ _, by rw [mem_store_lh, or_iff_left other]⟩
  · rename_i nonnull
    exact ⟨Extends.refl owns, nonnull, entry⟩

theorem Arrives.next {r : State × Nat} (arrives : Arrives sb k s (root, path) r)
    (mine : root.1 = (s.inode k).inum) (valid : shape.Valid (root, path ++ [i])) :
    Ends Panic.Full (Arrives sb k s (root, path ++ [i])) (indexEntry sb r.1 r.2 i) := by
  obtain ⟨grown, nonzero, here⟩ := arrives
  refine (indexEntry_ends grown.owns (mine.trans grown.inum.symm) valid here nonzero).mono ?_
  rintro r ⟨more, present, there⟩
  exact ⟨grown.trans more, present, there⟩

/-- The index entries of a path, one after the other. -/
def walk (sb : Superblock) (path : List Nat) (r : State × Nat) : Except Panic (State × Nat) :=
  path.foldlM (fun r i => indexEntry sb r.1 r.2 i) r

theorem walk_nil (sb : Superblock) : walk sb [] = pure := rfl

theorem walk_cons (sb : Superblock) (i : Nat) (rest : List Nat) :
    walk sb (i :: rest) = fun r => indexEntry sb r.1 r.2 i >>= walk sb rest := rfl

/-- The four branches of `bmap` are one walk. -/
theorem bmap_eq (sb : Superblock) (s : State) (k : Nat) (inside : bn < MAXFILE) :
    bmap sb s k bn = rootEntry sb s k (place (s.inode k).inum bn).1.2 >>=
      walk sb (place (s.inode k).inum bn).2 := by
  unfold place bmap
  by_cases direct : bn < NDIRECT
  · simp only [direct, if_true]
    exact (bind_pure _).symm
  by_cases single : bn < NDIRECT + NINDIRECT
  · have single' : bn - NDIRECT < NINDIRECT := by omega
    simp [direct, single, single', walk_cons, walk_nil]
  have single' : ¬ bn - NDIRECT < NINDIRECT := by omega
  by_cases double : bn < NDIRECT + NINDIRECT + NDOUINDIRECT
  · have double' : bn - NDIRECT - NINDIRECT < NDOUINDIRECT := by omega
    simp [direct, single, single', double, double', walk_cons, walk_nil]
  have double' : ¬ bn - NDIRECT - NINDIRECT < NDOUINDIRECT := by omega
  have triple : bn - NDIRECT - NINDIRECT - NDOUINDIRECT < NTRIINDIRECT := by
    rw [maxfile_eq] at inside
    simp only [NDIRECT, NINDIRECT, NDOUINDIRECT, NTRIINDIRECT, BSIZE] at double ⊢
    omega
  simp [direct, single, single', double, double', triple, walk_cons, walk_nil]

theorem bmap_outside {s : State} {k : Nat} (outside : ¬ bn < MAXFILE) :
    bmap sb s k bn = .error .bmapOutOfRange := by
  have limits : NDIRECT = 10 ∧ NINDIRECT = 128 ∧ NDOUINDIRECT = 16384 ∧ NTRIINDIRECT = 2097152 :=
    ⟨rfl, rfl, rfl, rfl⟩
  rw [maxfile_eq] at outside
  have direct : ¬ bn < NDIRECT := by omega
  have single : ¬ bn - NDIRECT < NINDIRECT := by omega
  have double : ¬ bn - NDIRECT - NINDIRECT < NDOUINDIRECT := by omega
  have triple : ¬ bn - NDIRECT - NINDIRECT - NDOUINDIRECT < NTRIINDIRECT := by omega
  simp [bmap, direct, single, double, triple]

theorem walk_ends (mine : root.1 = (s.inode k).inum) (rest : List Nat) {r : State × Nat}
    (arrives : Arrives sb k s (root, path) r) (valid : shape.Valid (root, path ++ rest)) :
    Ends Panic.Full (Arrives sb k s (root, path ++ rest)) (walk sb rest r) := by
  induction rest generalizing path r with
  | nil =>
    rw [append_nil]
    exact arrives
  | cons i rest ih =>
    have split : path ++ i :: rest = (path ++ [i]) ++ rest := by simp
    have shorter : shape.Valid (root, path ++ [i]) := by
      refine ⟨?_, fun j member => valid.2 j ?_⟩
      · have := valid.1
        simp only [length_append, length_cons, length_nil] at this ⊢
        omega
      · rcases mem_append.mp member with before | here
        · exact mem_append_left _ before
        · rw [mem_singleton.mp here]
          simp
    rw [walk_cons]
    refine (arrives.next mine shorter).bind fun r' arrives' => ?_
    rw [split] at valid ⊢
    exact ih arrives' valid

/-- `bmap` returns the block at the place of `bn`, or finds no free block. -/
theorem bmap_ends (owns : Owns sb (liveRoots sb s k) s.disk) (inside : bn < MAXFILE) :
    Ends Panic.Full (Arrives sb k s (place (s.inode k).inum bn)) (bmap sb s k bn) := by
  obtain ⟨valid, _, slot⟩ := place_valid (s.inode k).inum inside
  have mine := place_inum (s.inode k).inum bn
  rw [bmap_eq sb s k inside]
  generalize place (s.inode k).inum bn = x at valid slot mine ⊢
  obtain ⟨⟨inum, j⟩, path⟩ := x
  cases mine
  exact (rootEntry_ends owns slot).bind fun r arrives => walk_ends rfl path arrives valid

/-- The ancestors of a block that is there are there. -/
theorem blockAt_init_ne_zero (present : blockAt sb s k (root, path ++ [i]) ≠ 0) :
    blockAt sb s k (root, path) ≠ 0 := by
  intro null
  refine present ?_
  unfold blockAt at null ⊢
  rw [target_snoc, if_pos null]

theorem walk_mapped (rest : List Nat) (present : blockAt sb s k (root, path ++ rest) ≠ 0) :
    walk sb rest (s, blockAt sb s k (root, path)) = .ok (s,
      blockAt sb s k (root, path ++ rest)) := by
  induction rest using List.reverseRecOn with
  | nil =>
    rw [append_nil]
    rfl
  | append_singleton rest i ih =>
    rw [← append_assoc] at present ⊢
    have above := blockAt_init_ne_zero present
    have entry : blockAt sb s k (root, path ++ rest ++ [i]) =
        getWord (s.disk (blockAt sb s k (root, path ++ rest))) i := by
      unfold blockAt at above ⊢
      rw [target_snoc, if_neg above]
      rfl
    have before := ih above
    unfold walk at before ⊢
    rw [foldlM_append, before]
    simp only [foldlM_cons, foldlM_nil, indexEntry, bind_pure]
    rw [entry] at present ⊢
    exact if_neg present

/-- A block that is already there is found, and nothing changes. -/
theorem bmap_mapped (inside : bn < MAXFILE)
    (present : blockAt sb s k (place (s.inode k).inum bn) ≠ 0) :
    bmap sb s k bn = .ok (s, blockAt sb s k (place (s.inode k).inum bn)) := by
  obtain ⟨_, _, slot⟩ := place_valid (s.inode k).inum inside
  have mine := place_inum (s.inode k).inum bn
  rw [bmap_eq sb s k inside]
  generalize place (s.inode k).inum bn = x at slot mine present ⊢
  obtain ⟨⟨inum, j⟩, path⟩ := x
  cases mine
  have found : walk sb path (s, blockAt sb s k (((s.inode k).inum, j), [])) =
      .ok (s, blockAt sb s k (((s.inode k).inum, j), [] ++ path)) := walk_mapped path present
  have root : blockAt sb s k (((s.inode k).inum, j), []) = (s.inode k).addrs j := by
    simp [blockAt, target, liveRoots, slot]
  have nonzero : (s.inode k).addrs j ≠ 0 := by
    intro null
    refine present ?_
    simp [blockAt, target, liveRoots, slot, null]
  rw [root] at found
  rw [rootEntry, if_neg nonzero]
  exact found

theorem bmap_spec (owns : Owns sb (liveRoots sb s k) s.disk) (inside : bn < MAXFILE) :
    Ends Panic.Full (fun r => Arrives sb k s (place (s.inode k).inum bn) r ∧
      (blockAt sb s k (place (s.inode k).inum bn) ≠ 0 → r.1 = s)) (bmap sb s k bn) := by
  by_cases present : blockAt sb s k (place (s.inode k).inum bn) = 0
  · exact (bmap_ends owns inside).mono fun r arrives => ⟨arrives, fun other => absurd present other⟩
  · rw [bmap_mapped inside present]
    exact ⟨⟨Extends.refl owns, present, rfl⟩, fun _ => rfl⟩

end Xv6.Fs
