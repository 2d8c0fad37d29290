import Xv6.Lib.Bytes
import Xv6.Process.Consistent

/- exec.c. The file is given by its bytes and the arguments as strings without their final zero; the
program's name and its registers are left out. -/
namespace Xv6.Process

open Function Outcome Vm

variable {done : Bool} {image : Option (List UInt8)}

abbrev ELF_MAGIC : Nat := 0x464C457F
abbrev ELF_PROG_LOAD : Nat := 1

/-- The word at an offset of a header, counted in words. -/
def headerWord (header : List UInt8) (index : Nat) : Nat :=
  Bytes.getWord (fun i => header.getD i 0) index

/-- `elf.phnum`. -/
def phnum (header : List UInt8) : Nat := Bytes.getHalf (fun i => header.getD i 0) 22

/-- The loop over the program headers; the size of the image, or `none` for `goto bad`. -/
def loadSegments (file : List UInt8) :
    Nat → Nat → Mem → Pgdir → Nat → Except Stop (Mem × Pgdir × Option Nat)
  | 0, _, m, dir, sz => .ok (m, dir, some sz)
  | count + 1, off, m, dir, sz =>
    let ph := readFile file off 32
    let vaddr := headerWord ph 2
    let filesz := headerWord ph 4
    let memsz := headerWord ph 5
    if ph.length ≠ 32 then .ok (m, dir, none)
    else if headerWord ph 0 ≠ ELF_PROG_LOAD then
      loadSegments file count ((off + 32) % 2 ^ 32) m dir sz
    else if memsz < filesz ∨ (vaddr + memsz) % 2 ^ 32 < vaddr then .ok (m, dir, none)
    else do
      let (m, dir, sz) ← allocuvm m dir sz ((vaddr + memsz) % 2 ^ 32)
      if sz = 0 ∨ vaddr % PGSIZE ≠ 0 then .ok (m, dir, none)
      else do
        let (m, loaded) ← loaduvm m dir vaddr file (headerWord ph 1) filesz
        if loaded then loadSegments file count ((off + 32) % 2 ^ 32) m dir sz
        else .ok (m, dir, none)

/-- The loop over the argument strings; the stack pointer and the pointers to the strings. -/
def pushArgs (dir : Pgdir) :
    List (List UInt8) → Nat → Nat → List Nat → Mem → Except Stop (Mem × Option (Nat × List Nat))
  | [], _, sp, pointers, m => .ok (m, some (sp, pointers))
  | arg :: rest, argc, sp, pointers, m =>
    if argc ≥ MAXARG then .ok (m, none)
    else
      let sp := (sp + 2 ^ 32 - (arg.length + 1)) % 2 ^ 32 / 4 * 4
      match copyout m dir sp (arg ++ [0]) with
      | .error stop => .error stop
      | .ok (m, false) => .ok (m, none)
      | .ok (m, true) => pushArgs dir rest (argc + 1) sp (pointers ++ [sp]) m

/-- The strings and `ustack`, and whether they fit. -/
def pushStack (m : Mem) (dir : Pgdir) (sz : Nat) (argv : List (List UInt8)) :
    Except Stop (Mem × Bool) := do
  match ← pushArgs dir argv 0 sz [] m with
  | (m, none) => .ok (m, false)
  | (m, some (sp, pointers)) =>
    let argc := argv.length
    let ustack := [0xffffffff, argc, (sp + 2 ^ 32 - (argc + 1) * 4) % 2 ^ 32] ++ pointers ++ [0]
    copyout m dir ((sp + 2 ^ 32 - (3 + argc + 1) * 4) % 2 ^ 32) (ustack.flatMap wordBytes)

/-- The stack above an image of size `sz`; the size of the space, or `none` for `goto bad`. -/
def loadStack (m : Mem) (dir : Pgdir) (sz : Nat) (argv : List (List UInt8)) :
    Except Stop (Mem × Pgdir × Option Nat) := do
  let sz := pages sz * PGSIZE
  let (m, dir, sz) ← allocuvm m dir sz (sz + 2 * PGSIZE)
  if sz = 0 then .ok (m, dir, none)
  else do
    let dir ← clearpteu dir ((sz - 2 * PGSIZE) / PGSIZE)
    let (m, done) ← pushStack m dir sz argv
    .ok (m, dir, if done then some sz else none)

/-- The image and the stack in a new address space. -/
def loadImage (m : Mem) (dir : Pgdir) (elf file : List UInt8) (argv : List (List UInt8)) :
    Except Stop (Mem × Pgdir × Option Nat) := do
  let (m, dir, loaded) ← loadSegments file (phnum elf) (headerWord elf 7) m dir 0
  match loaded with
  | none => .ok (m, dir, none)
  | some sz => loadStack m dir sz argv

/-- Commit to the image in the directory in page `d`, or the label `bad`. -/
def execCommit (k : Kernel) (curproc d : Nat) (m : Mem) (dir : Pgdir) :
    Option Nat → Except Stop (Kernel × Bool)
  | none => do
    let m ← freevm m d dir
    .ok (k.setMem m, false)
  | some sz => do
    let oldpgdir := (k.proc curproc).pgdir
    let k := (k.setMem m).setDir d (some dir)
    let k := k.setProc curproc { k.proc curproc with pgdir := some d, sz := sz }
    let k ← k.freevm oldpgdir
    .ok (k, true)

/-- Whether `exec` returns 0; `file` is `none` when `namei` finds nothing. -/
def exec (k : Kernel) (curproc : Nat) (file : Option (List UInt8)) (argv : List (List UInt8)) :
    Except Stop (Kernel × Bool) :=
  match file with
  | none => .ok (k, false)
  | some file =>
    let elf := readFile file 0 52
    if elf.length ≠ 52 ∨ headerWord elf 0 ≠ ELF_MAGIC then .ok (k, false)
    else do
      match ← setupkvm k.mem with
      | (m, none) => .ok (k.setMem m, false)
      | (m, some (d, dir)) => do
        let (m, dir, loaded) ← loadImage m dir elf file argv
        execCommit k curproc d m dir loaded

variable {k t : Kernel} {p q d : Nat} {m m' : Mem} {dir dir' : Pgdir} {file elf : List UInt8}
  {reserved : List Nat}
  {argv : List (List UInt8)}

theorem loadSegments_spec {count off sz : Nat} {loaded : Option Nat}
    (ran : loadSegments file count off m dir sz = .ok (m', dir', loaded)) :
    Vm.Tidy m dir m' dir' ∧ ∀ size ∈ loaded, dir.Covers sz → dir'.Covers size := by
  induction count generalizing off m dir sz with
  | zero =>
    cases ran
    refine ⟨Vm.Tidy.refl _ _, ?_⟩
    rintro size isSize covers
    cases isSize
    exact covers
  | succ count ih =>
    have bad : ∀ {m₁ : Mem} {dir₁ : Pgdir}, Vm.Tidy m dir m₁ dir₁ →
        (Except.ok (m₁, dir₁, none) : Except Stop (Mem × Pgdir × Option Nat)) = .ok (m',
          dir', loaded) →
        Vm.Tidy m dir m' dir' ∧ ∀ size ∈ loaded, dir.Covers sz → dir'.Covers size := by
      intro m₁ dir₁ tidy same
      cases same
      exact ⟨tidy, fun size none => nomatch none⟩
    unfold loadSegments at ran
    dsimp only at ran
    split at ran
    · exact bad (Vm.Tidy.refl _ _) ran
    split at ran
    · exact ih ran
    split at ran
    · exact bad (Vm.Tidy.refl _ _) ran
    obtain ⟨⟨m₁, dir₁, sz₁⟩, grown, ran⟩ := bind_eq_ok.mp ran
    have tidy := (allocuvm_spec grown).1
    dsimp only at ran
    split at ran
    · exact bad tidy ran
    rename_i some
    obtain ⟨⟨m₂, loaded⟩, read, ran⟩ := bind_eq_ok.mp ran
    have kept := tidy.trans (tidy_bytes (loaduvm_freelist read))
    dsimp only at ran
    split at ran
    · obtain ⟨rest, covered⟩ := ih ran
      refine ⟨kept.trans rest, ?_⟩
      intro size isSize covers
      exact covered size isSize (covers_allocuvm covers grown fun zero => some (.inl zero))
    · exact bad kept ran

section

variable {R : Mem → Mem → Prop} (refl : ∀ m, R m m) (trans : ∀ {a b c}, R a b → R b c → R a c)
    (copies : ∀ {m m' va bytes done}, va < 2 ^ 32 → copyout m dir va bytes = .ok (m', done) →
      R m m')
include refl trans copies

/-- The arguments are written by `copyout` only. -/
theorem pushArgs_rel {argc sp : Nat} {pointers : List Nat} {pushed : Option (Nat × List Nat)}
    (ran : pushArgs dir argv argc sp pointers m = .ok (m', pushed)) : R m m' := by
  induction argv generalizing argc sp pointers m with
  | nil =>
    cases ran
    exact refl _
  | cons arg rest ih =>
    unfold pushArgs at ran
    split at ran
    · cases ran
      exact refl _
    dsimp only at ran
    split at ran
    · cases ran
    · rename_i copied
      cases ran
      exact copies (by omega) copied
    · rename_i copied
      exact trans (copies (by omega) copied) (ih ran)

theorem pushStack_rel {sz : Nat} (ran : pushStack m dir sz argv = .ok (m', done)) : R m m' := by
  unfold pushStack at ran
  obtain ⟨⟨m₁, pushed⟩, args, ran⟩ := bind_eq_ok.mp ran
  have first := pushArgs_rel refl trans copies args
  cases pushed with
  | none =>
    cases ran
    exact first
  | some place => exact trans first (copies (Nat.mod_lt _ (by decide)) ran)

end

theorem pushStack_freelist {sz : Nat} (ran : pushStack m dir sz argv = .ok (m', done)) :
    m'.freelist = m.freelist :=
  pushStack_rel (R := fun m m' => m'.freelist = m.freelist) (fun _ => rfl)
    (fun first second => second.trans first) (fun _ => copyoutLoop_freelist) ran

/-- The image and the stack cover the new space, which is not empty. -/
theorem loadImage_spec {loaded : Option Nat}
    (ran : loadImage m dir elf file argv = .ok (m', dir', loaded)) :
    Vm.Tidy m dir m' dir' ∧ ∀ sz ∈ loaded, dir'.Covers sz ∧ sz < KERNBASE := by
  unfold loadImage at ran
  obtain ⟨⟨m₁, dir₁, image⟩, segments, ran⟩ := bind_eq_ok.mp ran
  obtain ⟨tidy, covered⟩ := loadSegments_spec segments
  cases image with
  | none =>
    cases ran
    exact ⟨tidy, fun size none => nomatch none⟩
  | some size =>
    have covers : dir₁.Covers (pages size * PGSIZE) := by
      intro v below
      rw [pages_mul] at below
      exact covered size rfl (fun v below => absurd below (Nat.not_lt_zero v)) v below
    dsimp only [loadStack] at ran
    obtain ⟨⟨m₂, dir₂, sz⟩, grown, ran⟩ := bind_eq_ok.mp ran
    have tidy₂ := tidy.trans (allocuvm_spec grown).1
    dsimp only at ran
    split at ran
    · cases ran
      exact ⟨tidy₂, fun size none => nomatch none⟩
    rename_i some
    have whole := covers_allocuvm covers grown some
    have bound : sz < KERNBASE := by
      rcases (allocuvm_spec grown).2 with ⟨new, _, below, _⟩ | ⟨_, less, _⟩ | ⟨zero, _⟩
      · rw [new]
        exact below
      · omega
      · exact absurd zero some
    obtain ⟨dir₃, guarded, ran⟩ := bind_eq_ok.mp ran
    obtain ⟨⟨m₃, done⟩, pushed, ran⟩ := bind_eq_ok.mp ran
    cases ran
    refine ⟨(tidy₂.trans (clearpteu_spec guarded).1).trans
      (tidy_bytes (pushStack_freelist pushed)), ?_⟩
    intro size isSize
    have same : size = sz := by
      split at isSize
      · cases isSize
        rfl
      · cases isSize
    rw [same]
    exact ⟨covers_clearpteu whole guarded, bound⟩

theorem exec_eq (ran : exec k p image argv = .ok (t, done)) :
    done = false ∧ t = k ∨
    (∃ m, setupkvm k.mem = .ok (m, none) ∧ done = false ∧ t = k.setMem m) ∨
    ∃ m d dir elf file m' dir' loaded, setupkvm k.mem = .ok (m, some (d, dir)) ∧
      loadImage m dir elf file argv = .ok (m', dir', loaded) ∧
      ((∃ m'', loaded = none ∧ freevm m' d dir' = .ok m'' ∧ done = false ∧ t = k.setMem m'') ∨
      ∃ sz e old mem, loaded = some sz ∧ (k.proc p).pgdir = some e ∧
        update k.pgdirs d (some dir') e = some old ∧ freevm m' e old = .ok mem ∧
        done = true ∧ t = (((k.setMem mem).setDir d (some dir')).setDir e none).setProc p
          { k.proc p with pgdir := some d, sz := sz }) := by
  unfold exec at ran
  split at ran
  · cases ran
    exact .inl ⟨rfl, rfl⟩
  rename_i file
  dsimp only at ran
  split at ran
  · cases ran
    exact .inl ⟨rfl, rfl⟩
  right
  obtain ⟨⟨m₁, made⟩, setup, ran⟩ := bind_eq_ok.mp ran
  cases made with
  | none =>
    cases ran
    exact .inl ⟨m₁, setup, rfl, rfl⟩
  | some place =>
    obtain ⟨d, dir⟩ := place
    right
    dsimp only at ran
    obtain ⟨⟨m₂, dir₂, loaded⟩, image, ran⟩ := bind_eq_ok.mp ran
    refine ⟨m₁, d, dir, _, file, m₂, dir₂, loaded, setup, image, ?_⟩
    cases loaded with
    | none =>
      dsimp only at ran
      obtain ⟨m₃, freed, ran⟩ := bind_eq_ok.mp ran
      cases ran
      exact .inl ⟨m₃, rfl, freed, rfl, rfl⟩
    | some sz =>
      right
      dsimp only at ran
      obtain ⟨u, freed, ran⟩ := bind_eq_ok.mp ran
      cases ran
      cases pgdir : (k.proc p).pgdir with
      | none =>
        rw [pgdir] at freed
        cases freed
      | some e =>
        rw [pgdir] at freed
        unfold Kernel.freevm at freed
        obtain ⟨⟨e', old⟩, directory, rest⟩ := bind_eq_ok.mp freed
        obtain ⟨same, found⟩ := dir_eq_ok.mp directory
        cases same
        obtain ⟨m₃, freeing, result⟩ := bind_eq_ok.mp rest
        cases result
        exact ⟨sz, e, old, m₃, rfl, rfl, found, freeing, rfl, rfl⟩

theorem exec_table (ran : exec k p image argv = .ok (t, done)) : t.initproc = k.initproc ∧
    (∀ q, q ≠ p → t.proc q = k.proc q) ∧
    ∃ pgdir sz, t.proc p = { k.proc p with pgdir := pgdir, sz := sz } := by
  rcases exec_eq ran with ⟨_, same⟩ | ⟨m, _, _, same⟩ |
    ⟨m, d, dir, elf, file, m', dir', loaded, _, _, ⟨m'', _, _, _, same⟩ |
      ⟨sz, e, old, mem, _, _, _, _, _, same⟩⟩
  · rw [same]
    exact ⟨rfl, fun _ _ => rfl, _, _, rfl⟩
  · rw [same]
    exact ⟨rfl, fun _ _ => rfl, _, _, rfl⟩
  · rw [same]
    exact ⟨rfl, fun _ _ => rfl, _, _, rfl⟩
  · refine ⟨by rw [same]; rfl, ?_, some d, sz, ?_⟩
    · intro q other
      rw [same, setProc_of_ne other]
      rfl
    · rw [same, setProc_self]

/-- What `exec` leaves: the old space, or a new one in its place. -/
theorem exec_spec (sound : k.Sound reserved) (ran : exec k p image argv = .ok (t, done)) :
    t.Sound reserved ∧
    (done = false ∧ (∃ mem, t = k.setMem mem) ∨
    done = true ∧ ∃ mem d dir e sz, (k.proc p).pgdir = some e ∧ d ∈ k.mem.freelist ∧
      dir.Covers sz ∧ sz < KERNBASE ∧
      t = (((k.setMem mem).setDir d (some dir)).setDir e none).setProc p { k.proc p with
        pgdir := some d, sz := sz }) := by
  rcases exec_eq ran with ⟨failed, same⟩ | ⟨m, setup, failed, same⟩ |
    ⟨m, d, dir, elf, file, m', dir', loaded, setup, image, rest⟩
  · rw [same]
    exact ⟨sound, .inl ⟨failed, k.mem, rfl⟩⟩
  · rw [same]
    exact ⟨setupkvm_failed setup sound, .inl ⟨failed, m, rfl⟩⟩
  obtain ⟨owned, _, _, free⟩ := setupkvm_spec setup
  obtain ⟨tidy, fits⟩ := loadImage_spec image
  have owned' := tidy _ _ _ _ (owned _ _ reserved sound)
  rcases rest with ⟨m'', _, freed, failed, same⟩ |
    ⟨sz, e, old, mem, isSize, pgdir, found, freed, done, same⟩
  · rw [same]
    exact ⟨freevm_spec freed owned', .inl ⟨failed, m'', rfl⟩⟩
  obtain ⟨covers, bound⟩ := fits sz isSize
  refine ⟨?_, .inr ⟨done, mem, d, dir', e, sz, pgdir, free, covers, bound, same⟩⟩
  have kstacks : (fun q => (t.proc q).kstack) = fun q => (k.proc q).kstack := by
    funext q
    rw [same]
    exact setProc_same Proc.kstack (by rfl) q
  have joined := separate_freevm (separate_join owned') found freed
  rw [← kstacks] at joined
  rw [same] at joined ⊢
  exact joined

/-- A process without threads keeps everything consistent. -/
theorem consistent_exec (good : Consistent reserved k) (settled : Settled (k.proc p).state)
    (root : (k.proc p).master = none) (alone : ∀ i, (k.proc p).workerthread i = none)
    (ran : exec k p image argv = .ok (t, done)) : Consistent reserved t := by
  obtain ⟨e, old, pgdir, present⟩ := good.spaces.rooted p (.inl settled)
  obtain ⟨sound, cases⟩ := exec_spec good.sound ran
  rcases cases with ⟨_, mem, same⟩ | ⟨_, mem, d, dir, e', sz, pgdir', free, _, _, same⟩
  · subst same
    exact ⟨good.grouped, ⟨good.spaces.rooted, good.spaces.stacked, good.spaces.shared,
      good.spaces.apart⟩, sound⟩
  rw [pgdir] at pgdir'
  cases pgdir'
  have unlisted := good.grouped.unlisted_of_root root
  have leads : ∀ m i w, (k.proc m).workerthread i = some w → m ≠ p := by
    intro m i w listed equal
    rw [equal, alone i] at listed
    cases listed
  -- nobody else has the directory that is freed
  have solely : ∀ q, Settled (k.proc q).state → (k.proc q).pgdir = some e → q = p := by
    intro q settled' has
    rcases good.member_of_pgdir settled' settled root (has.trans pgdir.symm) with self | isWorker
    · exact self
    · obtain ⟨i, listed⟩ := good.grouped.mem_workers.mp isWorker
      exact absurd rfl (leads p i q listed)
  apply good.slot (p := p) alone unlisted (by rw [same]; rfl) sound
  · rfl
  · intro q f found other inUse has there
    rw [same]
    show update (update k.pgdirs d (some dir)) e none f = some found
    rw [update_of_ne, update_of_ne, there]
    · intro equal
      rw [equal] at there
      exact good.sound.not_free there free
    intro equal
    rw [equal] at has
    rcases inUse with settled' | ⟨m, i, listed⟩
    · exact other (solely q settled' has)
    · rw [good.spaces.shared m i q listed] at has
      exact leads m i q listed (solely m (good.grouped.top m i q listed).1 has)
  · intro _
    refine ⟨root, good.spaces.stacked p (.inl settled), d, dir, rfl, ?_, fun q => good.fresh free⟩
    rw [same]
    show update (update k.pgdirs d (some dir)) e none d = some dir
    rw [update_of_ne, update_self]
    intro equal
    rw [← equal] at present
    exact good.sound.not_free present free

end Xv6.Process
