import Xv6.Fs.Bmap

/- What fs.c does to the reference counts of the inode cache. -/
namespace Xv6.Fs

open Function Outcome

variable {sb : Superblock} {devsw : Devsw} {ref : Nat → Nat} {s : State}

/-- The reference counts of the slots. -/
def HasRefs (ref : Nat → Nat) (s : State) : Prop := ∀ k, (s.inode k).ref = ref k

section

variable (has : HasRefs ref s)
include has

theorem setInode_hasRefs {k : Nat} {ip : Inode} (same : ip.ref = ref k) :
    HasRefs ref (s.setInode k ip) := by
  intro j
  rw [setInode_inode]
  by_cases here : j = k
  · rw [here, update_self]
    exact same
  · rw [update_of_ne here]
    exact has j

theorem logWrite_hasRefs (b : Nat) (data : Bytes.Block) : WhenOk (HasRefs ref)
    (s.logWrite sb b data) := by
  unfold State.logWrite
  split
  · trivial
  · exact has

theorem balloc_hasRefs : WhenOk (fun r => HasRefs ref r.1) (balloc sb s) := by
  unfold balloc
  split
  · trivial
  · refine (logWrite_hasRefs has _ _).bind ?_
    intro s has
    refine (logWrite_hasRefs has _ _).bind ?_
    exact fun s has => has

theorem bfree_hasRefs (b : Nat) : WhenOk (HasRefs ref) (bfree sb s b) := by
  unfold bfree
  split
  · exact logWrite_hasRefs has _ _
  · trivial

theorem iupdate_hasRefs (k : Nat) : WhenOk (HasRefs ref) (iupdate sb s k) :=
  logWrite_hasRefs has _ _

theorem ilock_hasRefs (k : Nat) : WhenOk (HasRefs ref) (ilock sb s k) := by
  unfold ilock
  dsimp only
  split
  · exact has
  · split
    · trivial
    · exact setInode_hasRefs has (has k)

theorem rootEntry_hasRefs (k j : Nat) : WhenOk (fun r => HasRefs ref r.1) (rootEntry sb s k j) := by
  unfold rootEntry
  split
  · refine (balloc_hasRefs has).bind ?_
    exact fun r has => setInode_hasRefs has (has k)
  · exact has

theorem indexEntry_hasRefs (node i : Nat) : WhenOk (fun r => HasRefs ref r.1)
    (indexEntry sb s node i) := by
  unfold indexEntry
  split
  · refine (balloc_hasRefs has).bind ?_
    intro r has
    refine (logWrite_hasRefs has _ _).bind ?_
    exact fun s has => has
  · exact has

end

theorem walk_hasRefs (path : List Nat) : ∀ r : State × Nat, HasRefs ref r.1 →
    WhenOk (fun r => HasRefs ref r.1) (walk sb path r) :=
  Ends.foldlM (fun r : State × Nat => HasRefs ref r.1)
    (fun _ i has => indexEntry_hasRefs has _ i) path

theorem bmap_hasRefs (has : HasRefs ref s) (k bn : Nat) :
    WhenOk (fun r => HasRefs ref r.1) (bmap sb s k bn) := by
  by_cases inside : bn < MAXFILE
  · rw [bmap_eq sb s k inside]
    exact (rootEntry_hasRefs has k _).bind (walk_hasRefs _)
  · rw [bmap_outside inside]
    trivial

theorem freeTree_hasRefs (depth : Nat) :
    ∀ (s : State) (addr : Nat), HasRefs ref s → WhenOk (HasRefs ref)
      (freeTree sb depth s addr) := by
  induction depth with
  | zero => exact fun s addr has => bfree_hasRefs has addr
  | succ depth ih =>
    intro s addr has
    unfold freeTree
    refine Ends.bind (Ends.foldlM (HasRefs ref) ?_ _ s has) fun s has => bfree_hasRefs has addr
    intro s j has
    split
    · exact ih s _ has
    · exact has

theorem truncEntry_hasRefs (has : HasRefs ref s) (k j depth : Nat) :
    WhenOk (HasRefs ref) (truncEntry sb k s j depth) := by
  unfold truncEntry
  split
  · refine (freeTree_hasRefs depth s _ has).bind ?_
    exact fun s has => setInode_hasRefs has (has k)
  · exact has

theorem itrunc_hasRefs (has : HasRefs ref s) (k : Nat) : WhenOk (HasRefs ref) (itrunc sb s k) := by
  unfold itrunc
  refine Ends.bind (Ends.foldlM (HasRefs ref) ?_ _ s has) ?_
  · exact fun s j has => truncEntry_hasRefs has k j 0
  intro s has
  refine (truncEntry_hasRefs has k _ 1).bind ?_
  intro s has
  refine (truncEntry_hasRefs has k _ 2).bind ?_
  intro s has
  refine (truncEntry_hasRefs has k _ 3).bind ?_
  intro s has
  exact iupdate_hasRefs (setInode_hasRefs has (by exact has k)) k

theorem readiLoop_hasRefs (k n fuel : Nat) : ∀ (s : State) (tot off : Nat), HasRefs ref s →
    WhenOk (fun r => HasRefs ref r.1) (readiLoop sb k n fuel s tot off) := by
  induction fuel with
  | zero => exact fun s tot off has => has
  | succ fuel ih =>
    intro s tot off has
    unfold readiLoop
    split
    · refine (bmap_hasRefs has k _).bind ?_
      intro r has
      refine (ih r.1 _ _ has).bind ?_
      exact fun r has => has
    · exact has

theorem readi_hasRefs (has : HasRefs ref s) (k off n : Nat) :
    WhenOk (fun r => HasRefs ref r.1) (readi sb devsw s k off n) := by
  unfold readi
  dsimp only
  split
  · split <;> exact has
  · split
    · exact has
    · refine (readiLoop_hasRefs k _ _ s 0 off has).bind ?_
      exact fun r has => has

theorem writeiLoop_hasRefs (k : Nat) (src : Nat → UInt8) (n fuel : Nat) : ∀ (s : State)
    (tot off : Nat),
    HasRefs ref s → WhenOk (fun r => HasRefs ref r.1) (writeiLoop sb k src n fuel s tot off) := by
  induction fuel with
  | zero => exact fun s tot off has => has
  | succ fuel ih =>
    intro s tot off has
    unfold writeiLoop
    split
    · refine (bmap_hasRefs has k _).bind ?_
      intro r has
      refine (logWrite_hasRefs has _ _).bind ?_
      exact fun s has => ih s _ _ has
    · exact has

theorem writei_hasRefs (has : HasRefs ref s) (k : Nat) (src : Nat → UInt8) (off n : Nat) :
    WhenOk (fun r => HasRefs ref r.1) (writei sb devsw s k src off n) := by
  unfold writei
  dsimp only
  split
  · split <;> exact has
  split
  · exact has
  split
  · exact has
  refine (writeiLoop_hasRefs k src n n s 0 off has).bind ?_
  intro r has
  split
  · refine (iupdate_hasRefs (setInode_hasRefs has (by exact has k)) k).bind ?_
    exact fun s has => has
  · exact has

theorem readDirent_hasRefs (has : HasRefs ref s) (panic : Panic) (k off : Nat) :
    WhenOk (fun r => HasRefs ref r.1) (readDirent sb devsw panic s k off) := by
  unfold readDirent
  refine (readi_hasRefs has k off DIRENT).bind ?_
  intro r has
  dsimp only
  split
  · split
    · exact has
    · trivial
  · trivial

theorem dirlookupLoop_hasRefs (k : Nat) (name : Nat → UInt8) (fuel : Nat) :
    ∀ (s : State) (off : Nat),
    HasRefs ref s →
      WhenOk (fun r => HasRefs ref r.1) (dirlookupLoop sb devsw k name fuel s off) := by
  induction fuel with
  | zero => exact fun s off has => has
  | succ fuel ih =>
    intro s off has
    unfold dirlookupLoop
    split
    · refine (readDirent_hasRefs has _ k off).bind ?_
      intro r has
      dsimp only
      split
      · exact has
      · exact ih r.1 _ has
    · exact has

theorem dirlinkLoop_hasRefs (k fuel : Nat) : ∀ (s : State) (off : Nat),
    HasRefs ref s → WhenOk (fun r => HasRefs ref r.1) (dirlinkLoop sb devsw k fuel s off) := by
  induction fuel with
  | zero => exact fun s off has => has
  | succ fuel ih =>
    intro s off has
    unfold dirlinkLoop
    split
    · refine (readDirent_hasRefs has _ k off).bind ?_
      intro r has
      dsimp only
      split
      · exact has
      · exact ih r.1 _ has
    · exact has

section

variable (has : HasRefs ref s)
include has

theorem setInode_hasRefs_update {k n : Nat} {ip : Inode} (new : ip.ref = n) :
    HasRefs (update ref k n) (s.setInode k ip) := by
  intro j
  rw [setInode_inode]
  by_cases here : j = k
  · rw [here, update_self, update_self]
    exact new
  · rw [update_of_ne here, update_of_ne here]
    exact has j

theorem idup_hasRefs (k : Nat) : HasRefs (update ref k (ref k + 1)) (idup s k) :=
  setInode_hasRefs_update has (by rw [← has k])

theorem iget_hasRefs (inum : Nat) :
    WhenOk (fun r => HasRefs (update ref r.2 (ref r.2 + 1)) r.1) (iget s inum) := by
  unfold iget
  split
  · rename_i k _
    exact setInode_hasRefs_update has (by rw [← has k])
  · split
    · trivial
    · rename_i k free
      have unused : (s.inode k).ref = 0 := by simpa using (Scan.first_eq_some free).2.2.1
      exact setInode_hasRefs_update has (by rw [← has k, unused])

theorem ialloc_hasRefs (type : Nat) :
    WhenOk (fun r => HasRefs (update ref r.2 (ref r.2 + 1)) r.1) (ialloc sb s type) := by
  unfold ialloc
  split
  · trivial
  · refine (logWrite_hasRefs has _ _).bind ?_
    exact fun s has => iget_hasRefs has _

theorem iput_hasRefs (k : Nat) : WhenOk (HasRefs (update ref k (ref k - 1))) (iput sb s k) := by
  have dropped : ∀ s, HasRefs ref s → HasRefs (update ref k (ref k - 1))
      (s.setInode k { s.inode k with ref := (s.inode k).ref - 1 }) :=
    fun s has => setInode_hasRefs_update has (by rw [← has k])
  unfold iput
  refine Ends.ite (fun _ => ?_) fun _ => dropped s has
  refine (itrunc_hasRefs has k).bind ?_
  intro s has
  refine (iupdate_hasRefs (setInode_hasRefs has (by exact has k)) k).bind ?_
  exact fun s has => dropped _ (setInode_hasRefs has (has k))

/-- The reference that `dirlookup` returns is the only new one. -/
theorem dirlookup_hasRefs (k : Nat) (name : Nat → UInt8) :
    WhenOk (fun r => match r.2 with
      | none => HasRefs ref r.1
      | some (ip, _) => HasRefs (update ref ip (ref ip + 1)) r.1)
      (dirlookup sb devsw s k name) := by
  unfold dirlookup
  split
  · trivial
  refine (dirlookupLoop_hasRefs k name _ s 0 has).bind ?_
  intro r has
  dsimp only
  split
  · refine (iget_hasRefs has _).bind ?_
    exact fun r has => has
  · exact has

end

end Xv6.Fs
