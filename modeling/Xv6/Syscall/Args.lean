import Xv6.Process.ForkCopy

/- syscall.c: how the kernel fetches the arguments of a system call from the memory of its caller.
It reads that memory through the page directory of the caller. -/
namespace Xv6.Syscall

open Outcome Process Process.Calls Process.Sizes Vm

/-- A byte of user memory. The kernel does not expect a fault. -/
def load (k : Kernel) (curproc addr : Nat) : Except Stop UInt8 := do
  let (_, dir) ← k.dir (k.proc curproc).pgdir
  match dir.entry (addr / PGSIZE) with
  | none => .error .undefined
  | some pte => .ok (k.mem.page pte.frame (addr % PGSIZE))

/-- The word at `addr`, or `none` for -1. -/
def fetchint (k : Kernel) (curproc addr : Nat) : Except Stop (Option Nat) :=
  let sz := (k.proc curproc).sz
  if addr ≥ sz ∨ (addr + 4) % 2 ^ 32 > sz then .ok none
  else do
    let first ← load k curproc addr
    let second ← load k curproc (addr + 1)
    let third ← load k curproc (addr + 2)
    let fourth ← load k curproc (addr + 3)
    .ok (some (first.toNat + 256 * second.toNat + 65536 * third.toNat + 16777216 * fourth.toNat))

/-- The loop of `fetchstr`: where the string that goes on at `s` ends. -/
def fetchstrLoop (k : Kernel) (curproc ep : Nat) : Nat → Nat → Except Stop (Option Nat)
  | 0, _ => .ok none
  | fuel + 1, s =>
    if s < ep then do
      let byte ← load k curproc s
      if byte = 0 then .ok (some s) else fetchstrLoop k curproc ep fuel (s + 1)
    else .ok none

/-- The length of the string at `addr`, or `none` for -1. -/
def fetchstr (k : Kernel) (curproc addr : Nat) : Except Stop (Option Nat) :=
  let ep := (k.proc curproc).sz
  if addr ≥ ep then .ok none
  else (fetchstrLoop k curproc ep (ep - addr) addr).map fun ends => ends.map fun s => s - addr

/-- Argument `n` of a call that was made with stack pointer `esp`. -/
def argint (k : Kernel) (curproc esp n : Nat) : Except Stop (Option Nat) :=
  fetchint k curproc ((esp + 4 + 4 * n) % 2 ^ 32)

/-- A pointer to `size` bytes. -/
def argptr (k : Kernel) (curproc esp n : Nat) (size : Int) : Except Stop (Option Nat) := do
  match ← argint k curproc esp n with
  | none => .ok none
  | some i =>
    let sz := (k.proc curproc).sz
    if size < 0 ∨ i ≥ sz ∨ (i + size.toNat) % 2 ^ 32 > sz then .ok none else .ok (some i)

variable {k : Kernel} {p addr : Nat}

/-- The pages of `n` bytes from `addr` on are present in the page table of `p`. -/
def Present (k : Kernel) (p addr n : Nat) : Prop :=
  ∃ d dir, (k.proc p).pgdir = some d ∧ k.pgdirs d = some dir ∧
    ∀ a, addr ≤ a → a < addr + n → dir.entry (a / PGSIZE) ≠ none

/-- A process whose pages are all there. -/
structure Whole (k : Kernel) (p : Nat) : Prop where
  bound : (k.proc p).sz < KERNBASE
  present : Present k p 0 (k.proc p).sz

theorem whole_of_fits (good : Process.Consistent [0] k) (live : Live (k.proc p).state)
    (fits : Fits k p) : Whole k p := by
  obtain ⟨d, dir, pgdir, present⟩ := good.spaces.rooted p (.inl live.settled)
  refine ⟨fits.1, d, dir, pgdir, present, fun a _ below => ?_⟩
  apply fits.2 d dir pgdir present
  unfold pages PGSIZE
  omega

theorem Present.part {n : Nat} (present : Present k p 0 n) {count : Nat}
    (below : addr + count ≤ n) :
    Present k p addr count := by
  obtain ⟨d, dir, pgdir, there, pages⟩ := present
  exact ⟨d, dir, pgdir, there, fun a _ upper => pages a (Nat.zero_le a) (by omega)⟩

section

variable (whole : Whole k p)
include whole

theorem load_returns (below : addr < (k.proc p).sz) : Returns (fun _ => True) (load k p addr) := by
  obtain ⟨d, dir, pgdir, there, pages⟩ := whole.present
  unfold load
  rw [show k.dir (k.proc p).pgdir = .ok (d, dir) from Process.dir_eq_ok.mpr ⟨pgdir, there⟩]
  change Returns _ (match dir.entry (addr / PGSIZE) with
    | none => .error .undefined
    | some pte => .ok (k.mem.page pte.frame (addr % PGSIZE)))
  split
  · rename_i absent
    exact pages addr (Nat.zero_le addr) (by omega) absent
  · trivial

theorem fetchint_returns : Returns (fun word => word.isSome → Present k p addr 4)
    (fetchint k p addr) := by
  have bound := whole.bound
  unfold fetchint
  dsimp only
  split
  · exact fun none => by cases none
  rename_i accepted
  unfold KERNBASE at bound
  have below : addr + 4 ≤ (k.proc p).sz := by omega
  apply (load_returns whole (by omega)).bind
  intro _ _
  apply (load_returns whole (by omega)).bind
  intro _ _
  apply (load_returns whole (by omega)).bind
  intro _ _
  apply (load_returns whole (by omega)).bind
  intro _ _
  exact fun _ => whole.present.part below

theorem fetchstrLoop_returns {fuel s : Nat} :
    Returns (fun ends => ∀ e ∈ ends, s ≤ e ∧
      e < (k.proc p).sz) (fetchstrLoop k p (k.proc p).sz fuel s) := by
  induction fuel generalizing s with
  | zero => exact fun e none => by cases none
  | succ fuel ih =>
    unfold fetchstrLoop
    split
    · rename_i below
      apply (load_returns whole below).bind
      intro byte _
      split
      · intro e same
        cases same
        exact ⟨Nat.le_refl s, below⟩
      · apply ih.mono
        intro ends found e same
        obtain ⟨after, before⟩ := found e same
        exact ⟨by omega, before⟩
    · exact fun e none => by cases none

theorem fetchstr_returns :
    Returns (fun length => ∀ n ∈ length, Present k p addr (n + 1)) (fetchstr k p addr) := by
  unfold fetchstr
  dsimp only
  split
  · exact fun n none => by cases none
  have loop : Returns (fun ends => ∀ e ∈ ends, addr ≤ e ∧ e < (k.proc p).sz)
      (fetchstrLoop k p (k.proc p).sz ((k.proc p).sz - addr) addr) := fetchstrLoop_returns whole
  cases outcome : fetchstrLoop k p (k.proc p).sz ((k.proc p).sz - addr) addr with
  | error stop =>
    rw [outcome] at loop
    exact loop
  | ok ends =>
    rw [outcome] at loop
    intro n same
    obtain ⟨e, found, isLength⟩ := Option.map_eq_some_iff.mp same
    obtain ⟨after, before⟩ := loop e found
    exact whole.present.part (by omega)

theorem argptr_returns {esp n : Nat} {size : Int} (int : size < 2 ^ 31) :
    Returns (fun pointer => ∀ i ∈ pointer, 0 ≤ size ∧ Present k p i size.toNat)
      (argptr k p esp n size) := by
  have bound := whole.bound
  unfold argptr argint
  apply (fetchint_returns whole).bind
  intro word _
  cases word with
  | none => exact fun i none => by cases none
  | some i =>
    dsimp only
    split
    · exact fun i none => by cases none
    · rename_i accepted
      intro j same
      cases same
      unfold KERNBASE at bound
      exact ⟨by omega, whole.present.part (by omega)⟩

end

/-- What is accepted is present: `fetchint`, `fetchstr` and `argptr` return for `p`, and the bytes
that they accept are on pages that are present. -/
structure Accepts (k : Kernel) (p : Nat) : Prop where
  word : ∀ addr, Returns (fun word => word.isSome → Present k p addr 4) (fetchint k p addr)
  string :
    ∀ addr, Returns (fun length => ∀ n ∈ length, Present k p addr (n + 1)) (fetchstr k p addr)
  pointer : ∀ esp n size, size < 2 ^ 31 →
    Returns (fun pointer => ∀ i ∈ pointer, 0 ≤ size ∧
      Present k p i size.toNat) (argptr k p esp n size)

/-- In a run from boot, with memory for the first process, in which new threads take new memory,
threads are joined from the top of the address space, `sbrk` takes no stack of a live thread away
and calls are careful with directories, the kernel accepts only what is present. -/
theorem accepted_is_present {mem : Mem} {code : Nat → UInt8} {events : List Event} {last : Machine}
    (nodup : (0 :: mem.freelist).Nodup) (enough : bootSupply ≤ mem.freelist.length)
    (booted : Process.userinit (Kernel.boot mem) code = .ok k)
    (careful : Run.Steps step Careful (Machine.start k) events)
    (run : Run.exec step (Machine.start k) events = some last) :
    ∀ p, Live (last.k.proc p).state → Accepts last.k p := by
  intro p live
  have good := Process.Sizes.good_run nodup enough booted careful run
  have whole := whole_of_fits good.consistent live (good.sized.fits p live)
  exact ⟨fun _ => fetchint_returns whole, fun _ => fetchstr_returns whole,
    fun _ _ _ int => argptr_returns whole int⟩

theorem accepted_is_present_small : ∃ k last,
    Process.userinit (Kernel.boot Process.smallMem) (fun _ => 0) = .ok k ∧
    Run.Steps step Careful (Machine.start k) Process.Sizes.growingRun ∧
    Run.exec step (Machine.start k) Process.Sizes.growingRun = some last ∧
    Live (last.k.proc 1).state ∧ Accepts last.k 1 := by
  obtain ⟨k, last, booted, ends, careful, live⟩ :=
    Process.run_small step Machine.start Process.Sizes.growingRun (fun k m =>
      Run.Steps step Careful (Machine.start k) Process.Sizes.growingRun ∧ Live (m.k.proc 1).state)
      (by decide +kernel)
  have real := Process.Sizes.smallMem_real
  exact ⟨k, last, booted, careful, ends, live,
      accepted_is_present real.1 real.2 booted careful ends 1 live⟩

/-- Init makes a thread and gives two pages back while the thread lives. -/
def shrunkRun : List Event := [.dispatch 0, .threadCreate 0 0, .dispatch 1, .sbrk 0 (-8192)]

/-- After a thread was joined, an address on its stack is below the size of its master and is not
mapped. After `sbrk` the stack of a live thread is not mapped and below the size of the thread. -/
theorem accepted_is_unmapped :
    (Process.Tables.afterBoot Process.Sizes.joinedRun).map (fun m =>
      ((m.k.proc 0).state, (m.k.proc 0).sz, failure (fetchint m.k 0 (2 * PGSIZE)))) =
      some (.running, 3 * PGSIZE, some .undefined) ∧
    (Process.Tables.afterBoot shrunkRun).map (fun m =>
      ((m.k.proc 1).state, (m.k.proc 1).sz, failure (fetchint m.k 1 (2 * PGSIZE)))) =
      some (.running, 3 * PGSIZE, some .undefined) := by
  decide +kernel

end Xv6.Syscall
