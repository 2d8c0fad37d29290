import Xv6.Fs.Contents
import Xv6.Fs.Ledger

/- A call on files that returns has given back all that it took. -/
namespace Xv6.Fs.Names

open Function Outcome Refs

variable {I : Type} {slots : Finset I} {table : I → Option Nat} {hand locks : List Nat}
    {pending : Nat} {dir : Pgdir} {argv : List (List UInt8)} {path : Option (List UInt8)}
    {new : Descriptors.File} {after : Files}
  {sb : Superblock} {devsw : Devsw} {t : Task} {k dp ip : Nat}

section Exec

open Process Vm

theorem inMemory_ends {A B : Type} {part : Except Stop A} {next : A → Except Halt B}
    {post : B → Prop} (goes : ∀ a, WhenOk post (next a)) :
    WhenOk post (inMemory part >>= next) := by
  cases part with
  | error stop => trivial
  | ok a => exact goes a

theorem readBytes_ledger {off n : Nat} (ledger : Ledger slots table hand locks pending t) :
    WhenOk (fun r => Ledger slots table hand locks pending r.1)
      (readBytes sb devsw t ip off n) := by
  unfold readBytes
  refine (ledger.run fun ref has => readi_hasRefs has ip off n).bind ?_
  exact fun r ledger => ledger

theorem loaduvmLoop_ledger {v offset sz : Nat} (fuel : Nat) :
    ∀ (t : Task) (m : Mem) (i : Nat), Ledger slots table hand locks pending t →
    WhenOk (fun r => Ledger slots table hand locks pending r.1)
      (loaduvmLoop sb devsw dir v ip offset sz fuel t m i) := by
  induction fuel with
  | zero => exact fun t m i ledger => ledger
  | succ fuel ih =>
    intro t m i ledger
    unfold loaduvmLoop
    refine Ends.ite (fun _ => ?_) fun _ => ledger
    split
    · trivial
    · trivial
    · refine (readBytes_ledger ledger).bind ?_
      intro r ledger
      exact Ends.ite (fun _ => ih r.1 _ _ ledger) fun _ => ledger

theorem loaduvm_ledger {m : Mem} {addr offset sz : Nat}
    (ledger : Ledger slots table hand locks pending t) :
    WhenOk (fun r => Ledger slots table hand locks pending r.1)
      (loaduvm sb devsw t m dir addr ip offset sz) := by
  unfold loaduvm
  exact Ends.ite (fun _ => trivial) fun _ => loaduvmLoop_ledger _ t m 0 ledger

theorem loadSegments_ledger (count : Nat) : ∀ (off : Nat) (t : Task) (m : Mem)
    (dir : Pgdir) (sz : Nat),
    Ledger slots table hand locks pending t →
    WhenOk (fun r => Ledger slots table hand locks pending r.1)
      (loadSegments sb devsw ip count off t m dir sz) := by
  induction count with
  | zero => exact fun off t m dir sz ledger => ledger
  | succ count ih =>
    intro off t m dir sz ledger
    unfold loadSegments
    refine (readBytes_ledger ledger).bind ?_
    rintro ⟨t, ph⟩ ledger
    refine Ends.ite (fun _ => ledger) fun _ => ?_
    refine Ends.ite (fun _ => ih _ t m dir sz ledger) fun _ => ?_
    refine Ends.ite (fun _ => ledger) fun _ => inMemory_ends ?_
    rintro ⟨m, dir, sz⟩
    refine Ends.ite (fun _ => ledger) fun _ => ?_
    refine (loaduvm_ledger ledger).bind ?_
    rintro ⟨t, m, loaded⟩ ledger
    exact Ends.ite (fun _ => ih _ t m dir sz ledger) fun _ => ledger

variable {kernel : Kernel} {p : Nat}

theorem execBad_settled (ledger : Ledger slots table [ip] [ip] 1 t) :
    WhenOk (fun r => Settled slots table r.1) (execBad sb t kernel ip) := by
  unfold execBad
  refine ledger.iunlockput_head.bind ?_
  exact fun t ledger => ledger.end_op

theorem execImage_settled {m : Mem} {d : Nat} {elf : List UInt8}
    (ledger : Ledger slots table [ip] [ip] 1 t) :
    WhenOk
      (fun r => Settled slots table r.1) (execImage sb devsw t kernel p ip m d dir elf argv) := by
  unfold execImage
  refine (loadSegments_ledger _ _ t m dir 0 ledger).bind ?_
  rintro ⟨t, m, dir, loaded⟩ ledger
  cases loaded with
  | none => exact inMemory_ends fun m => execBad_settled ledger
  | some sz =>
    refine ledger.iunlockput_head.bind ?_
    intro t ledger
    dsimp only
    generalize loadStack m dir sz argv = stacked
    exact inMemory_ends fun _ => inMemory_ends fun _ => ledger.end_op

theorem exec_settled {cwd : Nat} {path : List UInt8} (books : Settled slots table t) :
    WhenOk (fun r => Settled slots table r.1) (exec sb devsw t kernel p cwd path argv) := by
  unfold exec
  refine books.begin_op.bind ?_
  intro t ledger
  refine ledger.namei.bind ?_
  rintro ⟨t, found⟩ ledger
  cases found with
  | none => exact Ledger.end_op ledger
  | some ip =>
    refine (Ledger.ilock ledger).bind ?_
    intro t ledger
    refine (readBytes_ledger ledger).bind ?_
    rintro ⟨t, elf⟩ ledger
    refine Ends.ite (fun _ => execBad_settled ledger) fun _ => inMemory_ends ?_
    rintro ⟨m, made⟩
    cases made with
    | none => exact execBad_settled ledger
    | some place => exact execImage_settled ledger

end Exec

section Tables

variable [DecidableEq I] {i : I}

theorem Ledger.take (ledger : Ledger slots table hand locks pending t) (inside : i ∈ slots)
    (points : table i = some k) : Ledger slots (update table i none) (k :: hand) locks pending t :=
  ⟨ledger.counted.take inside points, ledger.locked, ledger.ops⟩

theorem Ledger.put (ledger : Ledger slots table (k :: hand) locks pending t) (inside : i ∈ slots)
    (empty : table i = none) : Ledger slots (update table i (some k)) hand locks pending t :=
  ⟨ledger.counted.put inside empty, ledger.locked, ledger.ops⟩

/-- The new current directory takes the place of the old one. -/
theorem sys_chdir_settled {cwd : Nat} (books : Settled slots table t) (inside : i ∈ slots)
    (points : table i = some cwd) :
    WhenOk (fun r => Settled slots
      (if r.2 = none then table else update table i r.2) r.1)
      (sys_chdir sb devsw t cwd path) := by
  unfold sys_chdir
  refine books.begin_op.bind ?_
  intro t ledger
  cases path with
  | none => exact ledger.end_op
  | some path =>
    refine ledger.namei.bind ?_
    rintro ⟨t, found⟩ ledger
    cases found with
    | none => exact Ledger.end_op ledger
    | some ip =>
      refine (Ledger.ilock ledger).bind ?_
      intro t ledger
      refine Ends.ite (fun _ => ?_) fun _ => ?_
      · refine ledger.iunlockput_head.bind ?_
        exact fun t ledger => ledger.end_op
      refine ledger.iunlock_head.bind ?_
      intro t ledger
      refine (ledger.take inside points).iput.bind ?_
      intro t ledger
      have placed := ledger.put inside (update_self i none table)
      rw [update_idem] at placed
      exact placed.end_op

end Tables

section Machine

open Descriptors

/-- What points to the slots of the inode cache: the open files, then the current directories. -/
def pointing (files : Files) (cwd : Nat → Option Nat) : Nat ⊕ Nat → Option Nat
  | .inl f =>
    if (files.file f).ref = 0 then none
    else match (files.file f).type with
      | .inode ip => some ip
      | _ => none
  | .inr p => cwd p

@[irreducible] def holders : Finset (Nat ⊕ Nat) := (Finset.range NFILE).disjSum (Finset.range NPROC)

theorem mem_holders_file {f : Nat} (below : f < NFILE) : .inl f ∈ holders := by
  unfold holders
  exact Finset.inl_mem_disjSum.mpr (Finset.mem_range.mpr below)

theorem mem_holders_cwd {p : Nat} (below : p < NPROC) : .inr p ∈ holders := by
  unfold holders
  exact Finset.inr_mem_disjSum.mpr (Finset.mem_range.mpr below)

/-- A free `struct file` is open on nothing. -/
def Unused (files : Files) : Prop := ∀ f, (files.file f).ref = 0 → (files.file f).type = .none

/-- Between calls each inode's `ref` is the number of open files and current directories there. -/
structure Balanced (m : Machine) : Prop where
  refs : ∀ k, (m.fs.inode k).ref = Refs.refs holders (pointing m.files m.cwd) k
  unused : Unused m.files

variable {files : Files} {cwd : Nat → Option Nat} {f p : Nat}

theorem pointing_setFile :
    pointing (files.setFile f new) cwd = update (pointing files cwd) (.inl f)
      (if new.ref = 0 then none else match new.type with
        | .inode ip => some ip
        | _ => none) := by
  funext holder
  cases holder with
  | inl g =>
    by_cases same : g = f
    · rw [same, update_self]
      show (if ((files.setFile f new).file f).ref = 0 then none else _) = _
      rw [setFile_self]
    · rw [update_of_ne (by simpa using same)]
      show (if ((files.setFile f new).file g).ref = 0 then none else _) = _
      rw [setFile_of_ne same]
      rfl
  | inr p =>
    rw [update_of_ne Sum.inr_ne_inl]
    rfl

/-- The file that `filealloc` finds, which points to nothing. -/
theorem filealloc_free (unused : Unused files) (found : filealloc files = some (after, f)) :
    f < NFILE ∧
    (files.file f).ref = 0 ∧ after = files.setFile f ⟨1, .none⟩ := by
  obtain ⟨g, first, same⟩ := Option.map_eq_some_iff.mp found
  cases same
  obtain ⟨_, below, free, _⟩ := Scan.first_eq_some first
  have idle : (files.file f).ref = 0 := by simpa using free
  exact ⟨by omega, idle, congrArg (fun type => files.setFile f ⟨1, type⟩) (unused f idle)⟩

theorem pointing_chdir {new : Option Nat} :
    pointing files (update cwd p new) = update (pointing files cwd) (.inr p) new := by
  funext holder
  cases holder with
  | inl f =>
    rw [update_of_ne Sum.inl_ne_inr]
    rfl
  | inr q =>
    by_cases same : q = p
    · rw [same, update_self]
      exact update_self p new cwd
    · rw [update_of_ne (by simpa using same)]
      exact update_of_ne same new cwd

theorem Unused.setFile (unused : Unused files) (same : new.ref = 0 → new.type = .none) :
    Unused (files.setFile f new) := by
  intro g free
  by_cases here : g = f
  · rw [here, setFile_self] at free ⊢
    exact same free
  · rw [setFile_of_ne here] at free ⊢
    exact unused g free

theorem fdalloc_file {fd : Nat} (found : fdalloc files p f = some (after, fd)) :
    after.file = files.file := by
  obtain ⟨g, _, same⟩ := Option.map_eq_some_iff.mp found
  cases same
  rfl

theorem fileclose_new (fresh : files.file f = ⟨1, .none⟩) :
    fileclose sb t files f = .ok (t, files.setFile f ⟨0, .none⟩) := by
  unfold fileclose Descriptors.fileclose
  simp only [fresh]
  rfl

theorem pointing_congr {left right : Files} (same : left.file = right.file) :
    pointing left cwd = pointing right cwd := by
  funext holder
  unfold pointing
  rw [same]

theorem pointing_closed (free : (files.file f).ref = 0) :
    pointing ((files.setFile f ⟨1, .none⟩).setFile f ⟨0, .none⟩) cwd = pointing files cwd := by
  have empty : pointing files cwd (.inl f) = none := if_pos free
  rw [pointing_setFile, pointing_setFile, update_idem, if_pos rfl, ← empty]
  exact update_eq_self _ _

theorem pointing_opened (same : after.file = (files.setFile f ⟨1, .none⟩).file) :
    pointing (after.setFile f { after.file f with type := .inode ip }) cwd =
      update (pointing files cwd) (.inl f) (some ip) := by
  have one : (after.file f).ref = 1 := by rw [same, setFile_self]
  rw [pointing_setFile, pointing_congr same, pointing_setFile, update_idem]
  rw [if_neg (by rw [one]; exact nofun)]

/-- A new open file takes over the reference of `sys_open`. -/
theorem sys_open_settled {d omode : Nat} (unused : Unused files)
    (books : Settled holders (pointing files cwd) t) :
    WhenOk (fun r => Settled holders (pointing r.2.1 cwd) r.1 ∧ Unused r.2.1)
      (sys_open sb devsw t files p d path omode) := by
  unfold sys_open
  cases path with
  | none => exact ⟨books, unused⟩
  | some path =>
    refine books.begin_op.bind ?_
    intro t ledger
    refine (openInode_ledger ledger).bind ?_
    rintro ⟨t, found⟩ ledger
    cases found with
    | none => exact ⟨Ledger.end_op ledger, unused⟩
    | some ip =>
      cases taken : filealloc files with
      | none =>
        refine (Ledger.iunlockput_head ledger).bind ?_
        exact fun t ledger => ⟨ledger.end_op, unused⟩
      | some place =>
        obtain ⟨first, f⟩ := place
        obtain ⟨below, free, after⟩ := filealloc_free unused taken
        subst after
        have opened : Unused (files.setFile f ⟨1, .none⟩) := unused.setFile nofun
        dsimp only
        cases numbered : fdalloc (files.setFile f ⟨1, .none⟩) p f with
        | none =>
          dsimp only
          rw [fileclose_new (setFile_self files f _)]
          refine (Ledger.iunlockput_head ledger).bind ?_
          intro t ledger
          refine ⟨?_, opened.setFile fun _ => rfl⟩
          rw [pointing_closed free]
          exact ledger.end_op
        | some number =>
          obtain ⟨second, fd⟩ := number
          have table := fdalloc_file numbered
          refine (Ledger.iunlock_head ledger).bind ?_
          intro t ledger
          constructor
          · rw [pointing_opened table]
            exact (ledger.put (mem_holders_file below) (if_pos free)).end_op
          · have still : Unused second := fun g => by rw [table]; exact opened g
            have one : (second.file f).ref = 1 := by rw [table, setFile_self]
            exact still.setFile fun zero => absurd (one.symm.trans zero) Nat.one_ne_zero

/-- Whatever a call on files returns, it has ended each operation that it began, holds no lock, and
leaves as many references as there are open files and current directories. -/
theorem call_balanced {m after : Machine} {call : Call} (inside : p < NPROC) (balanced : Balanced m)
    (returned : invoke sb devsw m p call = .ok (t, after)) :
    t.ended = t.begun ∧ t.locks = [] ∧ Balanced after := by
  have books : Settled holders (pointing m.files m.cwd) m.task := ⟨balanced.refs, rfl, rfl⟩
  suffices settled : Settled holders (pointing after.files after.cwd) t ∧ after.fs = t.fs ∧
      Unused after.files by
    obtain ⟨ledger, same, unused⟩ := settled
    refine ⟨ledger.ops.symm, ledger.locked, ?_, unused⟩
    rw [same]
    exact ledger.counted
  unfold invoke at returned
  cases here : m.cwd p with
  | none =>
    rw [here] at returned
    cases returned
  | some d =>
    rw [here] at returned
    dsimp only at returned
    -- a call that leaves both tables alone
    have plain : ∀ {part : Except Halt (Task × Bool)},
        WhenOk (fun r => Settled holders (pointing m.files m.cwd) r.1) part →
        (part >>= fun r => .ok (r.1, { m with fs := r.1.fs })) = .ok (t, after) →
        Settled holders (pointing after.files after.cwd) t ∧ after.fs = t.fs ∧
          Unused after.files := by
      intro part ends returned
      obtain ⟨r, done, same⟩ := bind_eq_ok.mp returned
      cases same
      exact ⟨ends.of_ok done, rfl, balanced.unused⟩
    cases call with
    | sys_link old new => exact plain (sys_link_settled books) returned
    | sys_unlink path => exact plain (sys_unlink_settled books) returned
    | sys_mkdir path => exact plain (makeNode_settled books) returned
    | sys_mknod path major minor => exact plain (makeNode_settled books) returned
    | sys_open path omode =>
      obtain ⟨r, done, same⟩ := bind_eq_ok.mp returned
      cases same
      have ends := (sys_open_settled balanced.unused books).of_ok done
      exact ⟨ends.1, rfl, ends.2⟩
    | exec path argv =>
      obtain ⟨r, done, same⟩ := bind_eq_ok.mp returned
      cases same
      exact ⟨(exec_settled books).of_ok done, rfl, balanced.unused⟩
    | sys_chdir path =>
      obtain ⟨⟨u, new⟩, done, same⟩ := bind_eq_ok.mp returned
      have ends := (sys_chdir_settled books (mem_holders_cwd inside) here).of_ok done
      cases new with
      | none =>
        cases same
        exact ⟨ends, rfl, balanced.unused⟩
      | some ip =>
        cases same
        refine ⟨?_, rfl, balanced.unused⟩
        rw [pointing_chdir]
        exact ends

/-- A disk with the root directory alone. -/
def rootDisk (b : Nat) : Bytes.Block :=
  if b = 32 then putDinode Bytes.zero ROOTINO ⟨T_DIR, 0, 0, 1, 2 * DIRENT, fun j => if j = 0
      then 36 else 0⟩
  else if b = 34 then fun i => if i < 4 then 255 else if i = 4 then 31 else 0
  else if b = 36 then fun i =>
    if i < DIRENT then dirent dot ROOTINO i
    else if i < 2 * DIRENT then dirent dotdot ROOTINO (i - DIRENT)
    else 0
  else Bytes.zero

/-- Process 0 is in the root directory, which is in slot 0, and no file is open. -/
def rootMachine : Machine :=
  { fs :=
      { disk := rootDisk
        inode := fun k =>
          if k = 0 then ⟨⟨T_DIR, 0, 0, 1, 2 * DIRENT, fun j => if j = 0 then 36 else 0⟩,
            ROOTINO, 1, true⟩
          else ⟨⟨0, 0, 0, 0, 0, fun _ => 0⟩, 0, 0, false⟩
        lh := [] }
    files := ⟨fun _ => ⟨0, .none⟩, fun _ => none, fun _ => none⟩
    cwd := fun p => if p = 0 then some 0 else none
    kernel := Process.Kernel.boot Process.smallMem }

theorem rootMachine_balanced : Balanced rootMachine := by
  have bare : Counted holders (fun k => (rootMachine.fs.inode k).ref) (fun _ => none) [0] := by
    intro k
    have none : Refs.refs holders (fun _ => none) k = 0 := Refs.refs_eq_zero.mpr fun _ _ same =>
      nomatch same
    rw [none]
    by_cases here : k = 0
    · rw [here]
      rfl
    · rw [List.count_cons_of_ne (Ne.symm here)]
      exact congrArg Inode.ref (if_neg here)
  have same : pointing rootMachine.files rootMachine.cwd = update (fun _ => none) (.inr 0)
      (some 0) := by
    funext holder
    cases holder with
    | inl f => exact (update_of_ne Sum.inl_ne_inr _ _).symm
    | inr p =>
      by_cases first : p = 0
      · rw [first, update_self]
        rfl
      · rw [update_of_ne (by simpa using first)]
        exact if_neg first
  refine ⟨?_, fun _ _ => rfl⟩
  rw [same]
  exact bare.put (mem_holders_cwd (by decide : 0 < NPROC)) rfl

/-- `open("/a", O_CREATE)` makes the file and gives it descriptor 0. -/
theorem call_balanced_open : Balanced rootMachine ∧ ∃ t after,
    invoke smallSb noDevices rootMachine 0 (.sys_open (some [47, 97]) O_CREATE) = .ok (t, after) ∧
    after.files.ofile (0, 0) = some 0 ∧ (after.files.file 0).type = .inode 1 ∧ t.begun = 1 ∧
    t.ended = t.begun ∧ t.locks = [] ∧ Balanced after := by
  have run :
    (invoke smallSb noDevices rootMachine 0 (.sys_open (some [47, 97]) O_CREATE)).toOption.map
      (fun r => decide (r.2.files.ofile (0, 0) = some 0 ∧ (r.2.files.file 0).type = .inode 1 ∧
        r.1.begun = 1)) = some true := by decide +kernel
  obtain ⟨⟨t, after⟩, returned, holds⟩ := Option.map_eq_some_iff.mp run
  obtain ⟨number, opened, begun⟩ := of_decide_eq_true holds
  have done := toOption_eq_some.mp returned
  exact ⟨rootMachine_balanced, t, after, done, number, opened, begun,
    call_balanced (by decide) rootMachine_balanced done⟩

end Machine

end Xv6.Fs.Names
