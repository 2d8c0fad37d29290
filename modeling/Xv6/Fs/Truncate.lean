import Xv6.Fs.ReadWrite

/- `itrunc`: exactly the blocks of one file become free, and every other file stays. -/
namespace Xv6.Fs

open Function Bytes Forest Outcome

variable {sb : Superblock} {before middle after : Nat → Block} {s t u : State} {k : Nat}

/-- Only the free map has changed: the blocks in `gone` are free now. -/
structure Frees (sb : Superblock) (gone : Nat → Prop) (before after : Nat → Block) : Prop where
  marks : ∀ c < sb.size, inUse sb after c = true ↔ inUse sb before c = true ∧ ¬ gone c
  others : ∀ c, c < sb.bmapstart ∨ sb.dataStart ≤ c → after c = before c

/-- The blocks in `gone` are free now, and the log has their blocks of the free map. -/
structure Freed (sb : Superblock) (gone : Nat → Prop) (s t : State) : Prop where
  frees : Frees sb gone s.disk t.disk
  lh : ∀ b, b ∈ t.lh ↔ b ∈ s.lh ∨ ∃ c, gone c ∧ bblock sb c = b

theorem Freed.refl (sb : Superblock) (s : State) : Freed sb (fun _ => False) s s :=
  ⟨⟨fun _ _ => by simp, fun _ _ => rfl⟩, fun _ => by simp⟩

theorem Freed.congr {gone other : Nat → Prop} (freed : Freed sb gone s t)
    (same : ∀ c, gone c ↔ other c) : Freed sb other s t := by
  rw [← funext fun c => propext (same c)]
  exact freed

/-- The blocks of a subtree are at the places that extend the path to it. -/
theorem below_place {roots : Root → Nat} {disk : Nat → Block} {depth c : Nat} {r : Root}
    {path : List Nat} (level : path.length + depth = shape.depth r)
    (small : ∀ i ∈ path, i < NINDIRECT)
    (below : Below (pointer disk) NINDIRECT depth (target (pointer disk) roots (r, path)) c) :
    c ≠ 0 ∧ ∃ rest, shape.Valid (r, path ++ rest) ∧
      target (pointer disk) roots (r, path ++ rest) = c := by
  rw [below_iff] at below
  obtain ⟨nonzero, rest, short, inside, leads⟩ := below
  refine ⟨nonzero, rest, ⟨?_, fun i member => ?_⟩, ?_⟩
  · dsimp only
    rw [List.length_append]
    omega
  · exact (List.mem_append.mp member).elim (small i) (inside i)
  · rw [target, descend_append]
    exact leads

/-- In a good state `log_write` of a block in `logs` gives a good state, or stops as allowed. -/
def Writes (sb : Superblock) (allowed : Panic → Prop) (good : State → Prop) (logs : Nat → Prop) :
    Prop :=
  ∀ v b data, good v → logs b →
    Ends allowed (fun t => t = v.store b data ∧ good t) (v.logWrite sb b data)

theorem writes_any (sb : Superblock) :
    Writes sb (· = .tooBigTransaction) (fun _ => True) (fun _ => True) := by
  intro v b data _ _
  unfold State.logWrite
  exact .ite (fun _ => rfl) fun _ => ⟨rfl, trivial⟩

section Frees

variable {allowed : Panic → Prop} {good : State → Prop} {logs : Nat → Prop}
  (writes : Writes sb allowed good logs) {v : State} {gone : Nat → Prop}

include writes

theorem bfree_ends {b : Nat} (freed : Freed sb gone s v) (fine : good v)
    (used : inUse sb s.disk b = true) (inside : b < sb.size)
    (fresh : ¬ gone b ∧ logs (bblock sb b)) :
    Ends allowed (fun t => (Freed sb (fun c => gone c ∨ c = b) s t ∧ t.inode = v.inode) ∧ good t)
      (bfree sb v b) := by
  unfold bfree
  rw [if_pos ((freed.frees.marks b inside).mpr ⟨used, fresh.1⟩)]
  refine (writes _ _ _ fine fresh.2).mono ?_
  rintro t ⟨rfl, fine⟩
  refine ⟨⟨⟨⟨fun c bound => ?_, fun c outside => ?_⟩, fun d => ?_⟩, rfl⟩, fine⟩
  · rw [store_disk, inUse_unmark, Bool.and_eq_true, decide_eq_true_iff, freed.frees.marks c bound]
    tauto
  · have range := bblock_range sb inside
    rw [store_disk, update_of_ne (by omega), freed.frees.others c outside]
  · rw [mem_store_lh, freed.lh d]
    simp only [or_and_right, exists_or, exists_eq_left, or_assoc, @eq_comm _ d]

/-- The nested loops free the tree, whatever its depth, and find every block of it in use. -/
theorem freeTree_ends {roots : Root → Nat} (owns : Owns sb roots s.disk) (depth : Nat) {r : Root}
    {path : List Nat} (level : path.length + depth = shape.depth r)
    (small : ∀ i ∈ path, i < NINDIRECT) (present : target (pointer s.disk) roots (r, path) ≠ 0)
    (freed : Freed sb gone s v) (fine : good v)
    (fresh : ∀ c,
    Below (pointer s.disk) NINDIRECT depth (target (pointer s.disk) roots (r, path)) c →
      ¬ gone c ∧ logs (bblock sb c)) :
    Ends allowed (fun t => (Freed sb (fun c => gone c ∨
        Below (pointer s.disk) NINDIRECT depth (target (pointer s.disk) roots (r, path)) c) s t ∧
        t.inode = v.inode) ∧ good t)
      (freeTree sb depth v (target (pointer s.disk) roots (r, path))) := by
  induction depth generalizing v gone path with
  | zero =>
    have valid : shape.Valid (r, path) := ⟨Nat.le_of_eq level, small⟩
    refine (bfree_ends writes freed fine (owns.marked _ valid present) (owns.data _ valid present).2
      (fresh _ (Below.self present))).mono fun t post =>
        ⟨⟨post.1.1.congr fun c => ?_, post.1.2⟩, post.2⟩
    simp [Below, present]
  | succ depth ih =>
    have valid : shape.Valid (r, path) := ⟨by dsimp only; omega, small⟩
    have data := owns.data _ valid present
    have used := owns.marked _ valid present
    have child : ∀ j < NINDIRECT, (path ++ [j]).length + depth = shape.depth r ∧
        ∀ i ∈ path ++ [j], i < NINDIRECT := by
      intro j less
      refine ⟨by rw [List.length_append, List.length_singleton]; omega, fun i member => ?_⟩
      exact (List.mem_append.mp member).elim (small i) fun last => by simp_all
    have entry : ∀ j, target (pointer s.disk) roots (r, path ++ [j]) =
        pointer s.disk (target (pointer s.disk) roots (r, path)) j := by
      intro j
      rw [target_snoc, if_neg present]
    generalize isAddr : target (pointer s.disk) roots (r, path) = addr at *
    rw [freeTree]
    have loop : Ends allowed (fun u => (Freed sb (fun c => gone c ∨ ∃ j ∈ List.range NINDIRECT,
        Below (pointer s.disk) NINDIRECT depth (pointer s.disk addr j) c) s u ∧ u.inode = v.inode) ∧
          good u)
        ((List.range NINDIRECT).foldlM (fun s j =>
          if getWord (s.disk addr) j ≠ 0 then freeTree sb depth s (getWord (s.disk addr) j)
          else .ok s) v) := by
      refine Ends.rounds (fun done u => (Freed sb (fun c => gone c ∨ ∃ j ∈ done,
        Below (pointer s.disk) NINDIRECT depth (pointer s.disk addr j) c) s u ∧ u.inode = v.inode) ∧
          good u)
        (fun done j rest u whole kept => ?_) ⟨⟨freed.congr fun c => by simp, rfl⟩, fine⟩
      obtain ⟨⟨freedU, inode⟩, fineU⟩ := kept
      have less : j < NINDIRECT := by
        rw [← List.mem_range, whole]
        simp
      have distinct := List.nodup_range (n := NINDIRECT)
      rw [whole, List.nodup_append] at distinct
      rw [show getWord (u.disk addr) j = pointer s.disk addr j by
        rw [freedU.frees.others addr (.inr data.1)]; rfl]
      refine .ite (fun nonzero => ?_) fun null => ?_
      · rw [← entry] at nonzero ⊢
        refine (ih (child j less).1 (child j less).2 nonzero freedU fineU fun c below => ?_).mono
          fun t post =>
          ⟨⟨post.1.1.congr fun c => ?_, post.1.2.trans inode⟩, post.2⟩
        · have own := fresh c ⟨present, .inr ⟨j, less, entry j ▸ below⟩⟩
          refine ⟨?_, own.2⟩
          rintro (old | ⟨i, member, other⟩)
          · exact own.1 old
          -- the block would have two places
          have lessI : i < NINDIRECT := by
            rw [← List.mem_range, whole]
            exact List.mem_append_left _ member
          obtain ⟨nonzero, p, validP, leadsP⟩ := below_place (child j less).1 (child j less).2 below
          rw [← entry] at other
          obtain ⟨_, q, validQ, leadsQ⟩ := below_place (child i lessI).1 (child i lessI).2 other
          have same :=
            owns.exclusive _ _ validP validQ (leadsP ▸ nonzero) (leadsP.trans leadsQ.symm)
          simp only [Prod.mk.injEq, List.append_assoc, List.append_cancel_left_eq,
            List.singleton_append,
            List.cons.injEq, true_and] at same
          exact distinct.2.2 i member j (by simp) same.1.symm
        · simp [or_and_right, exists_or, or_assoc, entry]
      · have none : ∀ c, ¬ Below (pointer s.disk) NINDIRECT depth (pointer s.disk addr j) c := by
          intro c below
          rw [not_not.mp null, below_iff] at below
          obtain ⟨nonzero, rest, _, _, leads⟩ := below
          exact nonzero (leads.symm.trans (descend_null _ _))
        refine ⟨⟨freedU.congr fun c => ?_, inode⟩, fineU⟩
        simp [or_and_right, exists_or, none]
    refine loop.bind fun u post => ?_
    refine (bfree_ends writes post.1.1 post.2 used data.2 ⟨?_,
      (fresh addr (Below.self present)).2⟩).mono
      fun t last => ⟨⟨last.1.1.congr fun c => ?_, last.1.2.trans post.1.2⟩, last.2⟩
    · rintro (old | ⟨j, member, below⟩)
      · exact (fresh addr (Below.self present)).1 old
      · have less := List.mem_range.mp member
        rw [← entry] at below
        obtain ⟨_, p, validP, leads⟩ := below_place (child j less).1 (child j less).2 below
        have same := owns.exclusive _ _ validP valid (leads ▸ present) (leads.trans isAddr.symm)
        simp at same
    · simp only [List.mem_range, Below, ne_eq, present, not_false_eq_true, true_and, or_assoc]
      exact or_congr_right or_comm

end Frees

/-- The blocks in the trees of the listed entries of an inode. -/
def Trees (disk : Nat → Block) (ip : Inode) (entries : List Nat) (c : Nat) : Prop :=
  ∃ j ∈ entries, Below (pointer disk) NINDIRECT (shape.depth (ip.inum, j)) (ip.addrs j) c

/-- `itrunc` after some of its entries. -/
structure Truncated (sb : Superblock) (k : Nat) (entries : List Nat) (s t : State) : Prop where
  inode : t.inode = update s.inode k
    { s.inode k with addrs := fun j => if j ∈ entries then 0 else (s.inode k).addrs j }
  frees : Frees sb (Trees s.disk (s.inode k) entries) s.disk t.disk

theorem tree_place (sb : Superblock) {j c : Nat} (small : j < NADDRS)
    (below :
      Below (pointer s.disk) NINDIRECT (shape.depth ((s.inode k).inum, j))
    ((s.inode k).addrs j) c) :
    c ≠ 0 ∧ ∃ path, shape.Valid (((s.inode k).inum, j), path) ∧
      blockAt sb s k (((s.inode k).inum, j), path) = c := by
  refine below_place (show [].length + _ = _ from Nat.zero_add _) (by simp) ?_
  rw [target, descend_nil, liveRoots, if_pos rfl, if_pos small]
  exact below

/-- The four parts of `itrunc` as one loop over `addrs`. -/
theorem itrunc_eq (sb : Superblock) (s : State) (k : Nat) :
    itrunc sb s k = (List.range NADDRS).foldlM
      (fun s j => truncEntry sb k s j (j - (NDIRECT - 1))) s >>= fun s =>
        iupdate sb (s.setInode k { s.inode k with size := 0 }) k := by
  have parts : List.range NADDRS = List.range NDIRECT ++ [NDIRECT, NDIRECT + 1, NDIRECT + 2] := rfl
  rw [parts, List.foldlM_append]
  simp only [List.foldlM_cons, List.foldlM_nil, bind_assoc, pure_bind]
  rfl

/-- A slot without blocks, of the given type. -/
def emptySlot (ip : Inode) (type : Nat) : Inode :=
  { ip with
    type := type
    size := 0
    addrs := fun j => if j ∈ List.range NADDRS then 0 else ip.addrs j }

theorem emptySlot_fits {ip : Inode} {type : Nat} (fits : ip.Fits) (word : type < 2 ^ 16) :
    (emptySlot ip type).Fits := by
  refine ⟨word, fits.major, fits.minor, fits.nlink, Nat.two_pow_pos 32, ?_⟩
  intro j small
  simp only [emptySlot, List.mem_range, small, if_true]
  decide

theorem emptySlot_addrs (ip : Inode) (type : Nat) {j : Nat} (small : j < NADDRS) :
    (emptySlot ip type).addrs j = 0 := if_pos (List.mem_range.mpr small)

section Entries

variable {allowed : Panic → Prop} {good : State → Prop} {logs : Nat → Prop}
  (writes : Writes sb allowed good logs)
  (slots : ∀ v ip, good v → good (v.setInode k ip))
  (owns : Owns sb (liveRoots sb s k) s.disk)
  (log : ∀ c, Trees s.disk (s.inode k) (List.range NADDRS) c → logs (bblock sb c))

include writes slots owns log

theorem truncEntry_ends {entries : List Nat} {v : State} {j : Nat}
    (inside : ∀ i ∈ entries ++ [j], i < NADDRS) (new : j ∉ entries)
    (first : Truncated sb k entries s v) (freed : Freed sb (Trees s.disk (s.inode k) entries) s v)
    (fine : good v) :
    Ends allowed (fun t => (Truncated sb k (entries ++ [j]) s t ∧
        Freed sb (Trees s.disk (s.inode k) (entries ++ [j])) s t) ∧ good t)
      (truncEntry sb k v j (shape.depth ((s.inode k).inum, j))) := by
  have small : j < NADDRS := inside j (by simp)
  have slot : (v.inode k).addrs j = (s.inode k).addrs j := by
    rw [first.inode, update_self]
    exact if_neg new
  unfold truncEntry
  rw [slot]
  refine .ite (fun present => ?_) fun null => ?_
  · have root : target (pointer s.disk) (liveRoots sb s k) (((s.inode k).inum, j), []) =
        (s.inode k).addrs j := by
      rw [target, descend_nil, liveRoots, if_pos rfl, if_pos small]
    have tree := freeTree_ends writes owns _ (show [].length + _ = _ from Nat.zero_add _) (by simp)
      (root ▸ present) freed fine
    rw [root] at tree
    refine (tree fun c below => ⟨?_, log c ⟨j, List.mem_range.mpr small, below⟩⟩).bind fun u post =>
      ?_
    · rintro ⟨i, member, other⟩
      obtain ⟨nonzero, p, validP, leadsP⟩ := tree_place sb small below
      obtain ⟨_, q, validQ, leadsQ⟩ :=
        tree_place sb (inside i (List.mem_append_left _ member)) other
      have same := owns.exclusive _ _ validP validQ (fun null => nonzero (leadsP.symm.trans null))
        (leadsP.trans leadsQ.symm)
      simp only [Prod.mk.injEq, true_and] at same
      exact new (same.1 ▸ member)
    · have nulled : update (fun i => if i ∈ entries then 0 else (s.inode k).addrs i) j 0 =
          fun i => if i ∈ entries ++ [j] then 0 else (s.inode k).addrs i := by
        funext i
        by_cases same : i = j
        · simp [same]
        · simp [same]
      have freed : Freed sb (Trees s.disk (s.inode k) (entries ++ [j])) s u := by
        refine post.1.1.congr fun c => ?_
        simp [Trees, or_and_right, exists_or]
      refine ⟨⟨⟨?_, freed.frees⟩, freed.frees, freed.lh⟩, slots _ _ post.2⟩
      rw [setInode_inode, post.1.2, first.inode]
      simp only [update_self, update_idem, nulled]
  · have null : (s.inode k).addrs j = 0 := not_not.mp null
    have nulled : (fun i => if i ∈ entries then 0 else (s.inode k).addrs i) =
        fun i => if i ∈ entries ++ [j] then 0 else (s.inode k).addrs i := by
      funext i
      by_cases same : i = j
      · simp [same, null]
      · simp [same]
    have freed : Freed sb (Trees s.disk (s.inode k) (entries ++ [j])) s v := by
      refine freed.congr fun c => ?_
      have none : ¬ Below (pointer s.disk) NINDIRECT (shape.depth ((s.inode k).inum, j))
          ((s.inode k).addrs j) c := by
        rw [null, below_iff]
        rintro ⟨nonzero, path, _, _, leads⟩
        rw [descend_null] at leads
        exact nonzero leads.symm
      simp [Trees, or_and_right, exists_or, none]
    exact ⟨⟨⟨by rw [first.inode, nulled], freed.frees⟩, freed⟩, fine⟩

/-- All entries are freed and null when `itrunc` calls `iupdate`. -/
theorem itrunc_ends (fine : good s) (block : logs (iblock sb (s.inode k).inum)) :
    Ends allowed (fun t => (∃ u, Truncated sb k (List.range NADDRS) s u ∧
        Freed sb (Trees s.disk (s.inode k) (List.range NADDRS)) s u ∧
        t = storeInode sb (u.setInode k (emptySlot (s.inode k) (s.inode k).type)) (s.inode k).inum
          (emptySlot (s.inode k) (s.inode k).type).toDinode) ∧ good t) (itrunc sb s k) := by
  rw [itrunc_eq]
  refine (Ends.rounds (fun done v => (Truncated sb k done s v ∧
    Freed sb (Trees s.disk (s.inode k) done) s v) ∧ good v) ?_ ?_).bind fun u post => ?_
  · intro done j rest v whole kept
    have distinct := List.nodup_range (n := NADDRS)
    rw [whole, List.nodup_append] at distinct
    refine truncEntry_ends writes slots owns log (fun i member => ?_)
      (fun member => distinct.2.2 j member j (by simp) rfl) kept.1.1 kept.1.2 kept.2
    rw [← List.mem_range, whole]
    rw [List.mem_append, List.mem_singleton] at member
    simp only [List.mem_append, List.mem_cons]
    tauto
  · have freed : Freed sb (Trees s.disk (s.inode k) []) s s :=
      (Freed.refl sb s).congr fun c => by simp [Trees]
    exact ⟨⟨⟨by simp, freed.frees⟩, freed⟩, fine⟩
  · have slot : { u.inode k with size := 0 } = emptySlot (s.inode k) (s.inode k).type := by
      rw [post.1.1.inode, update_self]
      rfl
    rw [slot]
    unfold iupdate
    rw [setInode_inode, update_self]
    refine (writes _ _ _ (slots u _ post.2) block).mono fun t last =>
      ⟨⟨u, post.1.1, post.1.2, last.1⟩, last.2⟩

end Entries

theorem itrunc_truncated (owns : Owns sb (liveRoots sb s k) s.disk) (ran : itrunc sb s k = .ok t) :
    ∃ u, Truncated sb k (List.range NADDRS) s u ∧
      t = storeInode sb (u.setInode k (emptySlot (s.inode k) (s.inode k).type)) (s.inode k).inum
          (emptySlot (s.inode k) (s.inode k).type).toDinode := by
  obtain ⟨⟨u, truncated, _, last⟩, _⟩ := (itrunc_ends (writes_any sb) (fun _ _ _ => trivial) owns
    (fun _ _ => trivial) trivial trivial).of_ok ran
  exact ⟨u, truncated, last⟩

/-- The block is one of the file's. -/
def BlockOf (sb : Superblock) (disk : Nat → Block) (inum c : Nat) : Prop :=
  c ≠ 0 ∧ ∃ x, shape.Valid x ∧ x.1.1 = inum ∧ fileBlock sb disk x = c

theorem trees_iff (sb : Superblock) (s : State) (k c : Nat) :
    Trees s.disk (s.inode k) (List.range NADDRS) c ↔
      c ≠ 0 ∧ ∃ x, shape.Valid x ∧ x.1.1 = (s.inode k).inum ∧ blockAt sb s k x = c := by
  constructor
  · rintro ⟨j, small, below⟩
    obtain ⟨nonzero, path, valid, placed⟩ := tree_place sb (List.mem_range.mp small) below
    exact ⟨nonzero, _, valid, rfl, placed⟩
  rintro ⟨nonzero, ⟨⟨inum, j⟩, path⟩, valid, mine, leads⟩
  cases mine
  rw [blockAt, target, liveRoots, if_pos rfl] at leads
  split at leads
  · rename_i small
    exact ⟨j, List.mem_range.mpr small, below_iff.mpr ⟨nonzero, path, valid.1, valid.2, leads⟩⟩
  · rw [descend_null] at leads
    exact absurd leads.symm nonzero

/-- The blocks of one file are free now; of its disk inode nothing is said. -/
structure Cleared (sb : Superblock) (inum : Nat) (before after : Nat → Block) : Prop where
  marks : ∀ c < sb.size, inUse sb after c = true ↔ inUse sb before c = true ∧
    ¬ BlockOf sb before inum c
  data : ∀ c, sb.dataStart ≤ c → after c = before c
  dinodes : ∀ other < sb.ninodes, other ≠ inum →
    (dinode sb after other).Same (dinode sb before other)

/-- Its disk inode has no blocks either. -/
structure Emptied (sb : Superblock) (inum : Nat) (before after : Nat → Block) : Prop
    extends Cleared sb inum before after where
  size : (dinode sb after inum).size = 0
  addrs : ∀ j < NADDRS, (dinode sb after inum).addrs j = 0

theorem Truncated.cleared (inv : Inv sb s) (opened : Open s k)
    (truncated : Truncated sb k (List.range NADDRS) s u) :
    Cleared sb (s.inode k).inum s.disk u.disk := by
  constructor
  · intro c inside
    rw [truncated.frees.marks c inside, trees_iff sb]
    simp only [inv.blockAt_eq opened, BlockOf]
  · intro c data
    exact truncated.frees.others c (.inr data)
  · intro other inside _
    rw [dinode_congr other (truncated.frees.others _ (.inl (iblock_lt sb inside)))]
    exact Dinode.Same.refl _

theorem Cleared.store {inum : Nat} {dip : Dinode} (cleared : Cleared sb inum before u.disk)
    (inside : inum < sb.ninodes) (fits : dip.Fits) (size : dip.size = 0)
    (addrs : ∀ j < NADDRS, dip.addrs j = 0) :
    Emptied sb inum before (storeInode sb u inum dip).disk := by
  have self := dinode_storeInode_self sb u inum fits
  constructor
  · constructor
    · intro c bound
      rw [inUse_storeInode inside dip bound]
      exact cleared.marks c bound
    · intro c data
      have order := bmapstart_lt sb
      rw [storeInode_others u inside dip (by omega)]
      exact cleared.data c data
    · intro other bound apart
      exact (dinode_storeInode_ne sb u dip apart).trans (cleared.dinodes other bound apart)
  · exact self.size.trans size
  · intro j small
    exact (self.addrs j small).trans (addrs j small)

namespace Emptied

variable {inum : Nat} (emptied : Emptied sb inum before after)

include emptied

theorem live_iff {other : Nat} (apart : other ≠ inum) : Live sb after other ↔
    Live sb before other := by
  apply and_congr_right
  intro inside
  rw [(emptied.dinodes other inside apart).type]

theorem roots (root : Root) :
    diskRoots sb after root = if root.1 = inum then 0 else diskRoots sb before root := by
  unfold diskRoots
  by_cases mine : root.1 = inum
  · rw [if_pos mine, mine]
    split
    · rename_i both
      exact emptied.addrs _ both.2
    · rfl
  · rw [if_neg mine]
    by_cases both : Live sb before root.1 ∧ root.2 < NADDRS
    · rw [if_pos both, if_pos ⟨(emptied.live_iff mine).mpr both.1, both.2⟩]
      exact (emptied.dinodes _ both.1.1 mine).addrs _ both.2
    · rw [if_neg both, if_neg fun some => both ⟨(emptied.live_iff mine).mp some.1, some.2⟩]

variable (owned : Owns sb (diskRoots sb before) before)

include owned

theorem blocks {x : Place Root} (valid : shape.Valid x) :
    fileBlock sb after x = if x.1.1 = inum then 0 else fileBlock sb before x := by
  unfold fileBlock
  by_cases mine : x.1.1 = inum
  · rw [if_pos mine, target, emptied.roots, if_pos mine, descend_null]
  have moved : target (pointer after) (diskRoots sb before) x =
      target (pointer before) (diskRoots sb before) x := by
    apply target_congr _ valid
    intro y validY _ present i _
    simp only [pointer]
    rw [emptied.data _ (owned.data y validY present).1]
  rw [if_neg mine, ← moved, target, target, emptied.roots, if_neg mine]

/-- A block that is left belongs to another file, as before. -/
theorem block_left {x : Place Root} (valid : shape.Valid x) (present : fileBlock sb after x ≠ 0) :
    x.1.1 ≠ inum ∧ fileBlock sb after x = fileBlock sb before x := by
  rw [emptied.blocks owned valid] at present ⊢
  split at present
  · exact absurd rfl present
  · rename_i other
    exact ⟨other, if_neg other⟩

theorem owns : Owns sb (diskRoots sb after) after := by
  constructor
  · intro x y validX validY present same
    obtain ⟨_, equalX⟩ := emptied.block_left owned validX present
    obtain ⟨_, equalY⟩ := emptied.block_left owned validY
      (fun null => present (same.trans null))
    apply owned.exclusive x y validX validY
    · exact fun null => present (equalX.trans null)
    · exact equalX.symm.trans (same.trans equalY)
  · intro x valid present
    obtain ⟨_, equal⟩ := emptied.block_left owned valid present
    change sb.dataStart ≤ fileBlock sb after x ∧ fileBlock sb after x < sb.size
    rw [equal]
    exact owned.data x valid fun null => present (equal.trans null)
  · intro x valid present
    obtain ⟨other, equal⟩ := emptied.block_left owned valid present
    have nonzero : fileBlock sb before x ≠ 0 := fun null => present (equal.trans null)
    change inUse sb after (fileBlock sb after x) = true
    rw [equal, emptied.marks (fileBlock sb before x) (owned.data x valid nonzero).2]
    refine ⟨owned.marked x valid nonzero, ?_⟩
    intro foreign
    obtain ⟨_, y, validY, mine, same⟩ := foreign
    rw [← owned.exclusive x y valid validY nonzero same.symm] at mine
    exact other mine
  · intro c low
    rw [emptied.marks c (Nat.lt_of_lt_of_le low (Nat.sub_le _ _))]
    refine ⟨owned.metadata c low, ?_⟩
    intro data
    obtain ⟨nonzero, x, valid, _, same⟩ := data
    have range := owned.data x valid (fun null => nonzero (same.symm.trans null))
    change sb.dataStart ≤ fileBlock sb before x ∧ _ at range
    rw [same] at range
    omega

theorem noLeak (tight : NoLeak sb before) : NoLeak sb after := by
  intro c inside used
  obtain ⟨used, foreign⟩ := (emptied.marks c inside).mp used
  by_cases low : c < sb.dataStart
  · exact .inl low
  right
  have positive := dataStart_pos sb
  obtain ⟨x, valid, placed⟩ := (tight c inside used).resolve_left low
  have other : x.1.1 ≠ inum := fun mine => foreign ⟨by omega, x, valid, mine, placed⟩
  refine ⟨x, valid, ?_⟩
  rw [emptied.blocks owned valid, if_neg other, placed]

end Emptied

/-- The invariant after a file has lost its blocks, for whatever became of its slot. -/
theorem Emptied.inv {inum : Nat} (inv : Inv sb s) (emptied : Emptied sb inum s.disk t.disk)
    (refs : ∀ j, 0 < (t.inode j).ref → 0 < (s.inode j).ref ∧ (t.inode j).inum = (s.inode j).inum)
    (mine : ∀ j, Open t j → (t.inode j).inum = inum → Live sb t.disk inum ∧
      (t.inode j).toDinode.Same (dinode sb t.disk inum))
    (others : ∀ j, (t.inode j).inum ≠ inum → t.inode j = s.inode j) : Inv sb t := by
  apply inv.replace (emptied.owns inv.owns) emptied.dinodes _ _ refs mine others
  · intro x valid other
    rw [emptied.blocks inv.owns valid, if_neg other]
  · intro _ bn inside
    rw [emptied.size] at inside
    exact absurd inside (Nat.not_lt_zero _)

theorem iupdate_eq_ok (ran : iupdate sb s k = .ok t) :
    t = storeInode sb s (s.inode k).inum (s.inode k).toDinode := logWrite_eq_ok ran

theorem Inv.fits (inv : Inv sb s) (opened : Open s k) : (s.inode k).Fits := by
  have agrees := (inv.loaded k opened).2
  have fits := fits_dinode sb s.disk (s.inode k).inum
  constructor
  · rw [agrees.type]
    exact fits.type
  · rw [agrees.major]
    exact fits.major
  · rw [agrees.minor]
    exact fits.minor
  · rw [agrees.nlink]
    exact fits.nlink
  · rw [agrees.size]
    exact fits.size
  · intro j small
    rw [agrees.addrs j small]
    exact fits.addrs j small

theorem itrunc_emptied (inv : Inv sb s) (opened : Open s k) (ran : itrunc sb s k = .ok t) :
    Emptied sb (s.inode k).inum s.disk t.disk ∧
      t.inode = update s.inode k (emptySlot (s.inode k) (s.inode k).type) ∧
      (t.inode k).toDinode.Same (dinode sb t.disk (s.inode k).inum) := by
  obtain ⟨u, truncated, rfl⟩ := itrunc_truncated (inv.liveOwns opened) ran
  have fits := inv.fits opened
  have emptyFits := emptySlot_fits fits fits.type
  have slots : (u.setInode k (emptySlot (s.inode k) (s.inode k).type)).inode =
      update s.inode k (emptySlot (s.inode k) (s.inode k).type) := by
    rw [setInode_inode, truncated.inode, update_idem]
  have cleared : Cleared sb (s.inode k).inum s.disk
      (u.setInode k (emptySlot (s.inode k) (s.inode k).type)).disk := by
    rw [setInode_disk]
    exact truncated.cleared inv opened
  refine ⟨?_, slots, ?_⟩
  · exact cleared.store (inv.loaded k opened).1.1 emptyFits rfl fun j small =>
      emptySlot_addrs _ _ small
  · rw [storeInode_inode, slots, update_self]
    exact (dinode_storeInode_self sb _ _ emptyFits).symm

end Xv6.Fs
