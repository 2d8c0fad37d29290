import Xv6.Fs.Calls
import Xv6.Fs.ReadWrite

/- The calls with their inodes do to the open files and to the memory what the models of these alone
say: `fileclose` and `sys_open` those of the descriptors, `loaduvm` and `exec` those that get the
bytes of the file. -/
namespace Xv6.Fs.Names

open Descriptors Outcome Process Vm

variable {sb : Superblock} {devsw : Devsw} {t t' : Task} {files files' : Files} {A B : Type}
    {dir : Pgdir} {m : Mem} {sz : Nat}

theorem inMemory_eq_ok {x : Except Stop A} {a : A} (ran : inMemory x = .ok a) : x = .ok a := by
  cases x with
  | error _ => cases ran
  | ok _ =>
    cases ran
    rfl

theorem fileclose_files {f : Nat} (ran : fileclose sb t files f = .ok (t', files')) :
    Descriptors.fileclose files f = .ok files' := by
  unfold fileclose at ran
  obtain ⟨closed, closing, ran⟩ := bind_eq_ok.mp ran
  have same : closed = files' := by
    split at ran
    · split at ran
      · cases ran
        rfl
      · obtain ⟨_, _, ran⟩ := bind_eq_ok.mp ran
        obtain ⟨_, _, ran⟩ := bind_eq_ok.mp ran
        cases ran
        rfl
    · cases ran
      rfl
  rw [← same]
  cases result : Descriptors.fileclose files f with
  | error _ =>
    rw [result] at closing
    cases closing
  | ok _ =>
    rw [result] at closing
    cases closing
    rfl

theorem sys_open_files {p cwd omode : Nat} {path : Option (List UInt8)} {fd : Option Nat}
    (ran : sys_open sb devsw t files p cwd path omode = .ok (t', files', fd)) :
    ∃ ip, Descriptors.sys_open files p ip = .ok (files', fd) := by
  unfold sys_open at ran
  split at ran
  · cases ran
    exact ⟨none, rfl⟩
  obtain ⟨_, _, ran⟩ := bind_eq_ok.mp ran
  obtain ⟨⟨_, found⟩, _, ran⟩ := bind_eq_ok.mp ran
  cases found with
  | none =>
    cases ran
    exact ⟨none, rfl⟩
  | some ip =>
    refine ⟨some ip, ?_⟩
    unfold Descriptors.sys_open
    dsimp only at ran ⊢
    generalize filealloc files = allocated at ran ⊢
    cases allocated with
    | none =>
      obtain ⟨_, _, ran⟩ := bind_eq_ok.mp ran
      cases ran
      rfl
    | some place =>
      obtain ⟨opened, f⟩ := place
      dsimp only at ran ⊢
      generalize fdalloc opened p f = slot at ran ⊢
      cases slot with
      | none =>
        obtain ⟨⟨_, _⟩, closed, ran⟩ := bind_eq_ok.mp ran
        obtain ⟨_, _, ran⟩ := bind_eq_ok.mp ran
        cases ran
        exact bind_eq_ok.mpr ⟨_, fileclose_files closed, rfl⟩
      | some _ =>
        obtain ⟨_, _, ran⟩ := bind_eq_ok.mp ran
        cases ran
        rfl

/-- The inode in slot `ip` is a file that is loaded. -/
structure Loaded (sb : Superblock) (t : Task) (ip : Nat) : Prop where
  inv : Inv sb t.fs
  opened : Open t.fs ip
  file : (t.fs.inode ip).type ≠ T_DEV

/-- The bytes of the file in slot `ip`. -/
def bytesOf (sb : Superblock) (t : Task) (ip : Nat) : List UInt8 :=
  contents sb t.fs.disk (t.fs.inode ip).inum

section

variable {ip : Nat} (loaded : Loaded sb t ip)
include loaded

theorem readBytes_eq {off n : Nat} (offset : off < 2 ^ 32) (count : n < 2 ^ 32) :
    readBytes sb devsw t ip off n = .ok (t, readFile (bytesOf sb t ip) off n) := by
  obtain ⟨inv, opened, file⟩ := loaded
  have length : (bytesOf sb t ip).length = (t.fs.inode ip).size := by
    rw [inv.size_eq opened]
    exact contents_length _ _ _
  unfold readBytes readFile
  by_cases inside : off ≤ (t.fs.inode ip).size ∧ off + n < 2 ^ 32
  · rw [readi_eq devsw inv opened file inside.1 inside.2, if_pos inside.2]
    rfl
  · have fails : readi sb devsw t.fs ip off n = .ok (t.fs, none) := by
      unfold readi
      rw [if_neg file, if_pos (by omega)]
    have nothing : (if off + n < 2 ^ 32 then ((bytesOf sb t ip).drop off).take n else []) = [] := by
      split
      · rw [List.drop_eq_nil_of_le (by omega), List.take_nil]
      · rfl
    rw [fails, nothing]
    rfl

theorem loaduvmLoop_eq {v offset fuel i : Nat} :
    loaduvmLoop sb devsw dir v ip offset sz fuel t m i =
      inMemory (Vm.loaduvmLoop dir v (bytesOf sb t ip) offset sz fuel m i) >>= fun r =>
        .ok (t, r) := by
  induction fuel generalizing m i with
  | zero => rfl
  | succ fuel ih =>
    unfold loaduvmLoop Vm.loaduvmLoop
    split
    · cases dir.pgtab ((v + i) / NPTENTRIES) with
      | none => rfl
      | some _ =>
        cases dir.entry (v + i) with
        | none => rfl
        | some pte =>
          dsimp only
          rw [readBytes_eq loaded (Nat.mod_lt _ (by decide)) (by unfold PGSIZE; omega)]
          dsimp only [bind, Except.bind]
          split
          · exact ih
          · rfl
    · rfl

theorem loaduvm_eq {addr offset : Nat} :
    loaduvm sb devsw t m dir addr ip offset sz =
      inMemory (Vm.loaduvm m dir addr (bytesOf sb t ip) offset sz) >>= fun r => .ok (t, r) := by
  unfold loaduvm Vm.loaduvm
  split
  · rfl
  · exact loaduvmLoop_eq loaded

theorem loadSegments_eq {count off : Nat} (word : off < 2 ^ 32) :
    loadSegments sb devsw ip count off t m dir sz =
      inMemory (Process.loadSegments (bytesOf sb t ip) count off m dir sz) >>= fun r =>
        .ok (t, r) := by
  induction count generalizing off m dir sz with
  | zero => rfl
  | succ count ih =>
    have next := fun m dir sz => @ih dir m sz ((off + 32) % 2 ^ 32)
      (Nat.mod_lt (off + 32) (show 0 < 2 ^ 32 by decide))
    unfold loadSegments Process.loadSegments
    rw [readBytes_eq loaded word (by decide)]
    dsimp only [bind, Except.bind]
    generalize readFile (bytesOf sb t ip) off 32 = ph
    split
    · rfl
    split
    · exact next m dir sz
    split
    · rfl
    cases allocuvm m dir sz ((headerWord ph 2 + headerWord ph 5) % 2 ^ 32) with
    | error _ => rfl
    | ok grown =>
      obtain ⟨m, dir, sz⟩ := grown
      dsimp only [inMemory]
      split
      · rfl
      rw [loaduvm_eq loaded]
      cases Vm.loaduvm m dir (headerWord ph 2) (bytesOf sb t ip) (headerWord ph 1)
        (headerWord ph 4) with
      | error _ => rfl
      | ok read =>
        obtain ⟨m, done⟩ := read
        cases done with
        | false => rfl
        | true => exact next m dir sz

end

section

variable {k k' : Kernel} {p ip : Nat} {argv : List (List UInt8)} {done : Bool}

theorem execBad_eq (ran : execBad sb t k ip = .ok (t', k', done)) : k' = k ∧ done = false := by
  unfold execBad at ran
  obtain ⟨_, _, ran⟩ := bind_eq_ok.mp ran
  cases ran
  exact ⟨rfl, rfl⟩

/-- `exec` with a new page directory in page `d`. -/
theorem execImage_bytes {d : Nat} {elf : List UInt8} (loaded : Loaded sb t ip)
    (ran : execImage sb devsw t k p ip m d dir elf argv = .ok (t', k', done)) :
    (loadImage m dir elf (bytesOf sb t ip) argv >>= fun r => execCommit k p d r.1 r.2.1 r.2.2) =
      .ok (k', done) := by
  have word : headerWord elf 7 < 2 ^ 32 := Bytes.getWord_lt _ _
  unfold execImage at ran
  rw [loadSegments_eq loaded word] at ran
  unfold loadImage
  generalize Process.loadSegments (bytesOf sb t ip) (phnum elf) (headerWord elf 7) m dir 0 =
    read at ran ⊢
  cases read with
  | error _ => cases ran
  | ok segments =>
    obtain ⟨m, dir, size⟩ := segments
    obtain ⟨_, same, ran⟩ := bind_eq_ok.mp ran
    cases same
    cases size with
    | none =>
      obtain ⟨m, freed, ran⟩ := bind_eq_ok.mp ran
      obtain ⟨same, failed⟩ := execBad_eq ran
      rw [same, failed]
      exact bind_eq_ok.mpr ⟨_, rfl, bind_eq_ok.mpr ⟨m, inMemory_eq_ok freed, rfl⟩⟩
    | some sz =>
      obtain ⟨_, _, ran⟩ := bind_eq_ok.mp ran
      obtain ⟨image, stacked, ran⟩ := bind_eq_ok.mp ran
      obtain ⟨_, committed, ran⟩ := bind_eq_ok.mp ran
      cases ran
      refine bind_eq_ok.mpr ⟨image, ?_, inMemory_eq_ok committed⟩
      dsimp only [bind, Except.bind]
      exact inMemory_eq_ok stacked

end

/-- `exec` does to the processes what it does with the bytes of the file that it has found. -/
theorem exec_bytes {k k' : Kernel} {p cwd : Nat} {path : List UInt8} {argv : List (List UInt8)}
    {done : Bool}
    (sound : ∀ t₁ t₂ t₃ ip, t.begin_op = .ok t₁ → namei sb devsw t₁ cwd path = .ok (t₂, some ip) →
      t₂.ilock sb ip = .ok t₃ → Loaded sb t₃ ip)
    (ran : exec sb devsw t k p cwd path argv = .ok (t', k', done)) :
    ∃ file, Process.exec k p file argv = .ok (k', done) := by
  unfold exec at ran
  obtain ⟨t₁, begun, ran⟩ := bind_eq_ok.mp ran
  obtain ⟨⟨t₂, found⟩, named, ran⟩ := bind_eq_ok.mp ran
  cases found with
  | none =>
    cases ran
    exact ⟨none, rfl⟩
  | some ip =>
    dsimp only at ran
    obtain ⟨t₃, locked, ran⟩ := bind_eq_ok.mp ran
    have loaded := sound t₁ t₂ t₃ ip begun named locked
    refine ⟨some (bytesOf sb t₃ ip), ?_⟩
    unfold Process.exec
    rw [readBytes_eq loaded (by decide) (by decide)] at ran
    dsimp only [bind, Except.bind] at ran ⊢
    split at ran
    · rename_i notElf
      obtain ⟨same, failed⟩ := execBad_eq ran
      rw [if_pos notElf, same, failed]
    · rename_i isElf
      rw [if_neg isElf]
      cases made : setupkvm k.mem with
      | error _ =>
        rw [made] at ran
        cases ran
      | ok result =>
        rw [made] at ran
        obtain ⟨m, place⟩ := result
        cases place with
        | none =>
          obtain ⟨same, failed⟩ := execBad_eq ran
          rw [same, failed]
        | some place => exact execImage_bytes loaded ran

end Xv6.Fs.Names
