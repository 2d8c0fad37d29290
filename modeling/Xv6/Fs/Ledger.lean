import Xv6.Fs.Calls
import Xv6.Fs.HasRefs

/- The books of a system call: what it has in hand at each point between `begin_op` and `end_op`. -/
namespace Xv6.Fs

open Outcome

namespace Names

open Refs

variable {I : Type} {slots : Finset I} {table : I → Option Nat} {hand locks : List Nat}
    {pending : Nat} {sb : Superblock} {devsw : Devsw} {t : Task} {k dp ip : Nat}
    {cwd type major minor : Nat} {path : List UInt8} {name : Nat → UInt8} {parent : Bool}

/-- What a call has at one point: references to slots besides those of `table`, the locks that it
has taken, and operations that it has begun and not ended. -/
structure Ledger (slots : Finset I) (table : I → Option Nat) (hand locks : List Nat) (pending : Nat)
    (t : Task) : Prop where
  counted : Counted slots (fun k => (t.fs.inode k).ref) table hand
  locked : t.locks = locks
  ops : t.begun = t.ended + pending

theorem Ledger.fs {ref : Nat → Nat} {s : State} {other : List Nat}
    (ledger : Ledger slots table hand locks pending t) (has : HasRefs ref s)
    (counted : Counted slots ref table other) :
    Ledger slots table other locks pending { t with fs := s } := by
  have same : (fun k => (s.inode k).ref) = ref := funext has
  refine ⟨?_, ledger.locked, ledger.ops⟩
  rw [same]
  exact counted

theorem Ledger.perm {other : List Nat} (ledger : Ledger slots table hand locks pending t)
    (same : hand.Perm other) : Ledger slots table other locks pending t :=
  ⟨ledger.counted.perm same, ledger.locked, ledger.ops⟩

theorem Ledger.swap {j : Nat} (ledger : Ledger slots table (j :: k :: hand) locks pending t) :
    Ledger slots table (k :: j :: hand) locks pending t := ledger.perm (List.Perm.swap k j hand)

section Rules

variable (ledger : Ledger slots table hand locks pending t)
include ledger

theorem Ledger.run {A : Type} {part : Except Panic (State × A)}
    (keeps : ∀ ref, HasRefs ref t.fs → WhenOk (fun r => HasRefs ref r.1) part) :
    WhenOk (fun r => Ledger slots table hand locks pending r.1) (t.run part) := by
  have kept := keeps _ fun _ => rfl
  cases part with
  | error why => trivial
  | ok r => exact ledger.fs kept ledger.counted

theorem Ledger.write {part : Except Panic State}
    (keeps : ∀ ref, HasRefs ref t.fs → WhenOk (HasRefs ref) part) :
    WhenOk (Ledger slots table hand locks pending) (t.write part) := by
  have kept := keeps _ fun _ => rfl
  cases part with
  | error why => trivial
  | ok s => exact ledger.fs kept ledger.counted

/-- A part that returns a new reference, or none. -/
theorem Ledger.got {A : Type} {part : Except Panic (State × A)} (found : A → Option Nat)
    (gets : ∀ ref, HasRefs ref t.fs → WhenOk (fun r => match found r.2 with
      | none => HasRefs ref r.1
      | some ip => HasRefs (Function.update ref ip (ref ip + 1)) r.1) part) :
    WhenOk (fun r => Ledger slots table ((found r.2).toList ++ hand) locks pending r.1)
      (t.run part) := by
  have kept := gets _ fun _ => rfl
  cases part with
  | error why => trivial
  | ok r =>
    show Ledger slots table ((found r.2).toList ++ hand) locks pending { t with fs := r.1 }
    change (match found r.2 with
      | none => HasRefs (fun k => (t.fs.inode k).ref) r.1
      | some ip => HasRefs (Function.update (fun k => (t.fs.inode k).ref) ip _) r.1) at kept
    cases same : found r.2 with
    | none =>
      rw [same] at kept
      exact ledger.fs kept ledger.counted
    | some ip =>
      rw [same] at kept
      exact ledger.fs kept (ledger.counted.dup ip)

theorem Ledger.begin_op : WhenOk (Ledger slots table hand locks (pending + 1)) t.begin_op := by
  unfold Task.begin_op
  refine Ends.ite (fun _ => trivial) fun _ => ?_
  exact ⟨ledger.counted, ledger.locked, congrArg (· + 1) ledger.ops⟩

theorem Ledger.ilock : WhenOk (Ledger slots table hand (k :: locks) pending) (t.ilock sb k) := by
  unfold Task.ilock
  refine Ends.ite (fun _ => trivial) fun _ => Ends.ite (fun _ => trivial) fun _ => ?_
  refine (ledger.write fun ref has => ilock_hasRefs has k).bind ?_
  intro t ledger
  exact ⟨ledger.counted, congrArg (k :: ·) ledger.locked, ledger.ops⟩

theorem Ledger.iunlock : WhenOk (Ledger slots table hand (locks.erase k) pending)
    (t.iunlock k) := by
  unfold Task.iunlock
  refine Ends.ite (fun _ => trivial) fun _ => ?_
  exact ⟨ledger.counted, congrArg (List.erase · k) ledger.locked, ledger.ops⟩

theorem Ledger.dirlookup :
    WhenOk (fun r => Ledger slots table ((r.2.map Prod.fst).toList ++ hand) locks pending r.1)
      (t.run (dirlookup sb devsw t.fs dp name)) := by
  apply ledger.got (Option.map Prod.fst)
  intro ref has
  refine (dirlookup_hasRefs has dp name).mono ?_
  intro r has
  cases same : r.2 with
  | none =>
    rw [same] at has
    exact has
  | some entry =>
    rw [same] at has
    exact has

end Rules

theorem Ledger.end_op (ledger : Ledger slots table hand locks (pending + 1) t) :
    Ledger slots table hand locks pending (t.end_op sb) := by
  have same : ∀ k, ((t.end_op sb).fs.inode k).ref = (t.fs.inode k).ref := by
    intro k
    unfold Task.end_op endOp
    dsimp only
    split
    · split <;> rfl
    · rfl
  refine ⟨?_, ledger.locked, ?_⟩
  · rw [funext same]
    exact ledger.counted
  · exact ledger.ops.trans (Nat.add_right_comm t.ended pending 1)

theorem Ledger.iput (ledger : Ledger slots table (k :: hand) locks pending t) :
    WhenOk (Ledger slots table hand locks pending) (t.iput sb k) := by
  unfold Task.iput
  refine Ends.ite (fun _ => trivial) fun _ => ?_
  have kept : WhenOk _ (Fs.iput sb t.fs k) := iput_hasRefs (fun _ => rfl) k
  cases part : Fs.iput sb t.fs k with
  | error why => trivial
  | ok s =>
    rw [part] at kept
    exact ledger.fs kept ledger.counted.drop

theorem Ledger.iunlockput (ledger : Ledger slots table (k :: hand) locks pending t) :
    WhenOk (Ledger slots table hand (locks.erase k) pending) (t.iunlockput sb k) :=
  ledger.iunlock.bind fun _ ledger => ledger.iput

/-- The lock taken last is given back first. -/
theorem Ledger.iunlockput_head (ledger : Ledger slots table (k :: hand) (k :: locks) pending t) :
    WhenOk (Ledger slots table hand locks pending) (t.iunlockput sb k) := by
  have done : WhenOk _ (t.iunlockput sb k) := ledger.iunlockput
  rw [List.erase_cons_head] at done
  exact done

theorem Ledger.iunlock_head (ledger : Ledger slots table hand (k :: locks) pending t) :
    WhenOk (Ledger slots table hand locks pending) (t.iunlock k) := by
  have done := ledger.iunlock (k := k)
  rw [List.erase_cons_head] at done
  exact done

/-- The lock of the parent is given back before that of its child. -/
theorem Ledger.iunlockput_parent
    (ledger : Ledger slots table (ip :: dp :: hand) (ip :: dp :: locks) pending t) :
    WhenOk (Ledger slots table (ip :: hand) (ip :: locks) pending) (t.iunlockput sb dp) := by
  have done : WhenOk _ (t.iunlockput sb dp) := ledger.swap.iunlockput
  have rest : (ip :: dp :: locks).erase dp = ip :: locks := by
    by_cases same : ip = dp
    · rw [same, List.erase_cons_head]
    · rw [List.erase_cons_tail (by simpa using same), List.erase_cons_head]
  rw [rest] at done
  exact done

section Directories

variable (ledger : Ledger slots table hand locks pending t)
include ledger

theorem Ledger.dirlink {inum : Nat} :
    WhenOk (fun r => Ledger slots table hand locks pending r.1)
      (t.dirlink sb devsw dp name inum) := by
  unfold Task.dirlink
  refine ledger.dirlookup.bind ?_
  rintro ⟨t, found⟩ ledger
  cases found with
  | some entry =>
    refine (ledger : Ledger slots table (entry.1 :: hand) locks pending t).iput.bind ?_
    exact fun t ledger => ledger
  | none =>
    refine (ledger.run fun ref has => dirlinkLoop_hasRefs dp _ _ 0 has).bind ?_
    intro r ledger
    refine (ledger.run fun ref has => writei_hasRefs has dp _ _ DIRENT).bind ?_
    intro r ledger
    exact Ends.ite (fun _ => ledger) fun _ => trivial

theorem Ledger.setNlink {nlink : Nat} :
    WhenOk (Ledger slots table hand locks pending) (t.write (setNlink sb t.fs ip nlink)) :=
  ledger.write fun _ has => iupdate_hasRefs (setInode_hasRefs has (by exact has ip)) ip

theorem Ledger.isdirempty :
    WhenOk (fun r => Ledger slots table hand locks pending r.1)
      (t.run (isdirempty sb devsw t.fs ip)) := by
  have loop : ∀ (ref : Nat → Nat) (fuel : Nat) (s : State) (off : Nat), HasRefs ref s →
      WhenOk (fun r => HasRefs ref r.1) (isdiremptyLoop sb devsw ip fuel s off) := by
    intro ref fuel
    induction fuel with
    | zero => exact fun s off has => has
    | succ fuel ih =>
      intro s off has
      unfold isdiremptyLoop
      refine Ends.ite (fun _ => ?_) fun _ => has
      refine (readDirent_hasRefs has _ ip off).bind ?_
      intro r has
      exact Ends.ite (fun _ => has) fun _ => ih r.1 _ has
  exact ledger.run fun ref has => loop ref _ t.fs _ has

end Directories

section Paths

theorem Ledger.namexEnd (ledger : Ledger slots table (ip :: hand) locks pending t) :
    WhenOk (fun r => Ledger slots table ((r.2.map Prod.fst).toList ++ hand) locks pending r.1)
      (namexEnd sb parent t ip) := by
  unfold Names.namexEnd
  refine Ends.ite (fun _ => ?_) fun _ => ledger
  refine ledger.iput.bind ?_
  exact fun t ledger => ledger

/-- Each round of `namex` starts and ends with one inode in hand. -/
theorem Ledger.namexLoop (fuel : Nat) : ∀ (t : Task) (ip : Nat) (path : List UInt8),
    Ledger slots table (ip :: hand) locks pending t →
    WhenOk (fun r => Ledger slots table ((r.2.map Prod.fst).toList ++ hand) locks pending r.1)
      (namexLoop sb devsw parent fuel t ip path) := by
  induction fuel with
  | zero => exact fun t ip path ledger => ledger.namexEnd
  | succ fuel ih =>
    intro t ip path ledger
    unfold Names.namexLoop
    cases skipelem path with
    | none => exact ledger.namexEnd
    | some element =>
      obtain ⟨path, name⟩ := element
      refine ledger.ilock.bind ?_
      intro t ledger
      refine Ends.ite (fun _ => ?_) fun _ => Ends.ite (fun _ => ?_) fun _ => ?_
      · refine ledger.iunlockput_head.bind ?_
        exact fun t ledger => ledger
      · refine ledger.iunlock_head.bind ?_
        exact fun t ledger => ledger
      refine ledger.dirlookup.bind ?_
      rintro ⟨t, next⟩ ledger
      cases next with
      | none =>
        refine ledger.iunlockput_head.bind ?_
        exact fun t ledger => ledger
      | some entry =>
        refine ledger.swap.iunlockput_head.bind ?_
        exact fun t ledger => ih t entry.1 path ledger

theorem Ledger.namex
    (ledger : Ledger slots table hand locks pending t) :
    WhenOk (fun r => Ledger slots table ((r.2.map Prod.fst).toList ++ hand) locks pending r.1)
      (namex sb devsw t cwd path parent) := by
  unfold Names.namex
  refine (ledger.got some ?_).bind fun r ledger => ledger.namexLoop path.length r.1 r.2 path
  intro ref has
  exact Ends.ite (fun _ => iget_hasRefs has ROOTINO) fun _ => idup_hasRefs has cwd

theorem Ledger.namei (ledger : Ledger slots table hand locks pending t) :
    WhenOk (fun r => Ledger slots table (r.2.toList ++ hand) locks pending r.1)
      (namei sb devsw t cwd path) := by
  unfold Names.namei
  refine ledger.namex.bind ?_
  exact fun r ledger => ledger

end Paths

section Calls

/-- The books are closed: nothing in hand, no lock, no operation. -/
abbrev Settled (slots : Finset I) (table : I → Option Nat) (t : Task) : Prop :=
  Ledger slots table [] [] 0 t

theorem linkBad_settled (ledger : Ledger slots table [ip] [] 1 t) :
    WhenOk (fun r => Settled slots table r.1) (linkBad sb t ip) := by
  unfold linkBad
  refine ledger.ilock.bind ?_
  intro t ledger
  refine ledger.setNlink.bind ?_
  intro t ledger
  refine ledger.iunlockput_head.bind ?_
  exact fun t ledger => ledger.end_op

theorem linkName_settled {new : List UInt8} (ledger : Ledger slots table [ip] [] 1 t) :
    WhenOk (fun r => Settled slots table r.1) (linkName sb devsw t cwd ip new) := by
  unfold linkName
  refine (Ledger.namex ledger).bind ?_
  rintro ⟨t, found⟩ ledger
  cases found with
  | none => exact linkBad_settled ledger
  | some place =>
    refine (Ledger.ilock ledger).bind ?_
    intro t ledger
    refine ledger.dirlink.bind ?_
    rintro ⟨t, linked⟩ ledger
    refine ledger.iunlockput_head.bind ?_
    intro t ledger
    refine Ends.ite (fun _ => ?_) fun _ => linkBad_settled ledger
    refine ledger.iput.bind ?_
    exact fun t ledger => ledger.end_op

theorem sys_link_settled {old new : Option (List UInt8)} (books : Settled slots table t) :
    WhenOk (fun r => Settled slots table r.1) (sys_link sb devsw t cwd old new) := by
  unfold sys_link
  split
  · refine books.begin_op.bind ?_
    intro t ledger
    refine ledger.namei.bind ?_
    rintro ⟨t, found⟩ ledger
    cases found with
    | none => exact Ledger.end_op ledger
    | some ip =>
      refine (Ledger.ilock ledger).bind ?_
      intro t ledger
      refine Ends.ite (fun _ => ?_) fun _ => ?_
      · refine ledger.iunlockput_head.bind ?_
        exact fun t ledger => ledger.end_op
      · refine ledger.setNlink.bind ?_
        intro t ledger
        refine ledger.iunlock_head.bind ?_
        exact fun t ledger => linkName_settled ledger
  · exact books

theorem unlinkBad_settled (ledger : Ledger slots table [dp] [dp] 1 t) :
    WhenOk (fun r => Settled slots table r.1) (unlinkBad sb t dp) := by
  unfold unlinkBad
  refine ledger.iunlockput_head.bind ?_
  exact fun t ledger => ledger.end_op

theorem unlinkEntry_settled {off : Nat} (ledger : Ledger slots table [ip, dp] [ip, dp] 1 t) :
    WhenOk (fun r => Settled slots table r.1) (unlinkEntry sb devsw t dp ip off) := by
  unfold unlinkEntry
  refine (ledger.run fun ref has => writei_hasRefs has dp _ off DIRENT).bind ?_
  rintro ⟨t, r⟩ ledger
  refine Ends.ite (fun _ => trivial) fun _ => ?_
  refine (ledger.write fun ref has => ?_).bind ?_
  · exact Ends.ite (fun _ => iupdate_hasRefs (setInode_hasRefs has (by exact has dp)) dp) fun _ =>
      has
  intro t ledger
  refine ledger.iunlockput_parent.bind ?_
  intro t ledger
  refine ledger.setNlink.bind ?_
  intro t ledger
  refine ledger.iunlockput_head.bind ?_
  exact fun t ledger => ledger.end_op

theorem unlinkFound_settled {off : Nat} (ledger : Ledger slots table [ip, dp] [dp] 1 t) :
    WhenOk (fun r => Settled slots table r.1) (unlinkFound sb devsw t dp ip off) := by
  unfold unlinkFound
  refine ledger.ilock.bind ?_
  intro t ledger
  refine Ends.ite (fun _ => trivial) fun _ => ?_
  have tested : WhenOk (fun r => Ledger slots table [ip, dp] [ip, dp] 1 r.1)
      (t.run (if (t.fs.inode ip).type = T_DIR then isdirempty sb devsw t.fs ip
        else .ok (t.fs, true))) := by
    split
    · exact ledger.isdirempty
    · exact ledger
  refine tested.bind ?_
  rintro ⟨t, empty⟩ ledger
  refine Ends.ite (fun _ => unlinkEntry_settled ledger) fun _ => ?_
  refine ledger.iunlockput_head.bind ?_
  exact fun t ledger => unlinkBad_settled ledger

theorem sys_unlink_settled {path : Option (List UInt8)} (books : Settled slots table t) :
    WhenOk (fun r => Settled slots table r.1) (sys_unlink sb devsw t cwd path) := by
  unfold sys_unlink
  cases path with
  | none => exact books
  | some path =>
    refine books.begin_op.bind ?_
    intro t ledger
    refine (Ledger.namex ledger).bind ?_
    rintro ⟨t, found⟩ ledger
    cases found with
    | none => exact Ledger.end_op ledger
    | some place =>
      refine (Ledger.ilock ledger).bind ?_
      intro t ledger
      refine Ends.ite (fun _ => unlinkBad_settled ledger) fun _ => ?_
      refine ledger.dirlookup.bind ?_
      rintro ⟨t, entry⟩ ledger
      cases entry with
      | none => exact unlinkBad_settled ledger
      | some entry => exact unlinkFound_settled ledger

theorem createDots_ledger (ledger : Ledger slots table hand locks pending t) :
    WhenOk (Ledger slots table hand locks pending) (createDots sb devsw t dp ip) := by
  unfold createDots
  refine ledger.setNlink.bind ?_
  intro t ledger
  refine ledger.dirlink.bind ?_
  rintro ⟨t, first⟩ ledger
  refine Ends.ite (fun _ => ?_) fun _ => trivial
  refine ledger.dirlink.bind ?_
  rintro ⟨t, second⟩ ledger
  exact Ends.ite (fun _ => ledger) fun _ => trivial

/-- `create` ends with the new inode locked and its parent given back. -/
theorem createNew_ledger
    (ledger : Ledger slots table (dp :: hand) (dp :: locks) pending t) :
    WhenOk (fun r => Ledger slots table (r.2 :: hand) (r.2 :: locks) pending r.1)
      (createNew sb devsw t dp name type major minor) := by
  unfold createNew
  refine (ledger.got some fun ref has => ialloc_hasRefs has type).bind ?_
  rintro ⟨t, ip⟩ ledger
  refine (Ledger.ilock ledger).bind ?_
  intro t ledger
  refine (ledger.write fun ref has =>
    iupdate_hasRefs (setInode_hasRefs has (by exact has ip)) ip).bind ?_
  intro t ledger
  refine Ends.ite (fun _ => (createDots_ledger ledger).bind fun t ledger => ?_) fun _ => ?_
  all_goals
    refine ledger.dirlink.bind ?_
    rintro ⟨t, linked⟩ ledger
    refine Ends.ite (fun _ => ?_) fun _ => trivial
    refine ledger.iunlockput_parent.bind ?_
    exact fun t ledger => ledger

theorem create_ledger
    (ledger : Ledger slots table hand locks pending t) :
    WhenOk (fun r => Ledger slots table (r.2.toList ++ hand) (r.2.toList ++ locks) pending r.1)
      (create sb devsw t cwd path type major minor) := by
  unfold create
  refine (Ledger.namex ledger).bind ?_
  rintro ⟨t, found⟩ ledger
  cases found with
  | none => exact ledger
  | some place =>
    refine (Ledger.ilock ledger).bind ?_
    intro t ledger
    refine ledger.dirlookup.bind ?_
    rintro ⟨t, entry⟩ ledger
    cases entry with
    | none =>
      refine (createNew_ledger ledger).bind ?_
      exact fun r ledger => ledger
    | some entry =>
      refine (Ledger.swap ledger).iunlockput_head.bind ?_
      intro t ledger
      refine ledger.ilock.bind ?_
      intro t ledger
      refine Ends.ite (fun _ => ledger) fun _ => ?_
      refine ledger.iunlockput_head.bind ?_
      exact fun t ledger => ledger

theorem openInode_ledger {omode : Nat}
    (ledger : Ledger slots table hand locks pending t) :
    WhenOk (fun r => Ledger slots table (r.2.toList ++ hand) (r.2.toList ++ locks) pending r.1)
      (openInode sb devsw t cwd path omode) := by
  unfold openInode
  refine Ends.ite (fun _ => create_ledger ledger) fun _ => ?_
  refine ledger.namei.bind ?_
  rintro ⟨t, found⟩ ledger
  cases found with
  | none => exact ledger
  | some ip =>
    refine (Ledger.ilock ledger).bind ?_
    intro t ledger
    refine Ends.ite (fun _ => ?_) fun _ => ledger
    refine ledger.iunlockput_head.bind ?_
    exact fun t ledger => ledger

theorem makeNode_settled {path : Option (List UInt8)}
    (books : Settled slots table t) :
    WhenOk (fun r => Settled slots table r.1) (makeNode sb devsw t cwd path type major minor) := by
  unfold makeNode
  refine books.begin_op.bind ?_
  intro t ledger
  cases path with
  | none => exact ledger.end_op
  | some path =>
    refine (create_ledger ledger).bind ?_
    rintro ⟨t, found⟩ ledger
    cases found with
    | none => exact Ledger.end_op ledger
    | some ip =>
      refine (Ledger.iunlockput_head ledger).bind ?_
      exact fun t ledger => ledger.end_op

end Calls

end Names

end Xv6.Fs
