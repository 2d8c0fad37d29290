import Xv6.Process.Sizes

/- `fork` after any history of the address space. -/
namespace Xv6.Process.Sizes

open Calls Outcome Vm

variable {k t : Kernel} {p np : Nat} {reserved : List Nat}

/-- The pages of the child below the size of `p` are copies of those of `p` on pages that `p` has
not. -/
def ExactCopy (k t : Kernel) (p child : Nat) : Prop :=
  (t.proc child).sz = (k.proc p).sz ∧ ∃ e dir d dir', (k.proc p).pgdir = some e ∧
    k.pgdirs e = some dir ∧
    (t.proc child).pgdir = some d ∧ t.pgdirs d = some dir' ∧
    ∀ v, v < pages (k.proc p).sz → ∃ pte frame, dir.entry v = some pte ∧
      dir'.entry v = some { pte with frame := frame } ∧ t.mem.page frame = k.mem.page pte.frame ∧
      ∀ w other, dir.entry w = some other → other.frame ≠ frame

/-- `copyuvm` does not stop, and there is a kernel stack to free when it fails. -/
theorem forkRest_returns (good : Consistent [0] k) (fits : Fits k p)
    (settled : Settled (k.proc p).state) (stack : (k.proc np).kstack ≠ none) : ∃ result,
    forkRest k p np = .ok result := by
  obtain ⟨e, dir, pgdir, present⟩ := good.spaces.rooted p (.inl settled)
  have null : 0 ∉ k.mem.freelist := by
    have nodup : (0 :: k.mem.freelist).Nodup := good.sound.nodup
    exact (List.nodup_cons.mp nodup).1
  obtain ⟨⟨mem, made⟩, copied⟩ := copyuvm_returns (fits.2 e dir pgdir present) null
  have found : k.dir (k.proc p).pgdir = .ok (e, dir) := dir_eq_ok.mpr ⟨pgdir, present⟩
  obtain ⟨page, isPage⟩ := Option.ne_none_iff_exists'.mp stack
  unfold forkRest
  rw [found]
  change ∃ result, (copyuvm k.mem dir (k.proc p).sz >>= _) = .ok result
  rw [copied]
  cases made with
  | none =>
    change ∃ result, ((k.setMem mem).free (k.proc np).kstack >>= _) = .ok result
    rw [isPage]
    exact ⟨_, rfl⟩
  | some pair => exact ⟨_, rfl⟩

theorem forkRest_exact {made : Option Nat} (good : Consistent reserved k)
    (ran : forkRest k p np = .ok (t, made)) : ∀ child ∈ made, ExactCopy k t p child := by
  intro child isChild
  obtain ⟨e, dir, mem, pgdir, present, ⟨_, failed, _⟩ | ⟨d, new, copied, isMade, same⟩⟩ :=
    forkRest_eq ran
  · rw [failed] at isChild
    cases isChild
  rw [isMade] at isChild
  cases isChild
  have taken := good.sound.page_not_free present
  obtain ⟨_, _, _, _, copy⟩ := copyuvm_spec copied good.sound taken
  have own : t.proc np = { k.proc np with
      pgdir := some d, sz := (k.proc p).sz, parent := some p, state := .runnable } := by
    rw [same, setProc_proc, Function.update_self]
  rw [ExactCopy, own]
  refine ⟨rfl, e, dir, d, new, pgdir, present, rfl, ?_, fun v below => ?_⟩
  · rw [same]
    exact Function.update_self _ _ _
  obtain ⟨pte, frame, entry, entry', free, bytes⟩ := copy v below
  refine ⟨pte, frame, entry, entry', ?_, fun w other there equal => ?_⟩
  · rw [same]
    exact bytes
  · rw [← equal] at free
    exact taken w other there free

/-- `fork` by a process whose pages are all there returns -1 or an exact copy. -/
theorem fork_exact (good : Consistent [0] k) (fits : Fits k p) (live : Live (k.proc p).state) :
    ∃ t made, fork k p = .ok (t, made) ∧ ∀ child ∈ made, ExactCopy k t p child := by
  unfold fork
  split
  · rename_i u _
    exact ⟨u, none, rfl, fun child isNone => nomatch isNone⟩
  rename_i u np allocated
  obtain ⟨good', _, _, stack, _, ⟨_, unused⟩, others⟩ := consistent_allocproc good allocated
  have caller : p ≠ np := by
    intro equal
    rw [equal, unused] at live
    exact live.settled.1 rfl
  have same := others p caller
  have memory : u.pgdirs = k.pgdirs ∧ u.mem.page = k.mem.page := by
    obtain ⟨rest, frame, taken, memory, _⟩ := allocprocRest_eq_true (allocproc_some allocated).2
    rw [memory.pgdirs, memory.mem]
    exact ⟨rfl, (kalloc_some taken).2⟩
  have fits' : Fits u p := by
    unfold Fits
    rw [same, memory.1]
    exact fits
  obtain ⟨⟨t, made⟩, ran⟩ := forkRest_returns good' fits' (same ▸ live.settled) stack
  refine ⟨t, made, ran, fun child isChild => ?_⟩
  have copy := forkRest_exact good' ran child isChild
  unfold ExactCopy at copy
  rw [same, memory.1, memory.2] at copy
  exact copy

/-- In a run from boot, with memory for the first process, in which new threads take new memory,
threads are joined from the top of the address space, `sbrk` takes no stack of a live thread away
and calls are careful with directories, every `fork` returns -1 or an exact copy. -/
theorem fork_copies_exactly {mem : Mem} {code : Nat → UInt8} {events : List Event} {last : Machine}
    (nodup : (0 :: mem.freelist).Nodup) (enough : bootSupply ≤ mem.freelist.length)
    (booted : userinit (Kernel.boot mem) code = .ok k)
    (careful : Run.Steps step Careful (Machine.start k) events)
    (run : Run.exec step (Machine.start k) events = some last) :
    ∀ p, Live (last.k.proc p).state → ∃ t made, fork last.k p = .ok (t, made) ∧
      ∀ child ∈ made, ExactCopy last.k t p child := by
  intro p live
  have good := good_run nodup enough booted careful run
  exact fork_exact good.consistent (good.sized.fits p live) live

/-- A child of init loads a program and makes a thread, and both grow their memory. -/
def growingRun : List Event :=
  [.dispatch 0, .fork 0, .dispatch 1, .exec 1 (some Tables.emptyProgram) [], .threadCreate 1 0,
    .dispatch 2, .sbrk 2 5000, .sbrk 1 (-5000), .threadExit 2 7]

theorem fork_copies_exactly_small : ∃ k last, userinit (Kernel.boot smallMem) (fun _ => 0) = .ok k ∧
    Run.Steps step Careful (Machine.start k) growingRun ∧
    Run.exec step (Machine.start k) growingRun = some last ∧ Live (last.k.proc 1).state ∧
    ∃ t made, fork last.k 1 = .ok (t, made) ∧ ∀ child ∈ made, ExactCopy last.k t 1 child := by
  obtain ⟨k, last, booted, ends, careful, live⟩ :=
    run_small step Machine.start growingRun (fun k m =>
    Run.Steps step Careful (Machine.start k) growingRun ∧
      Live (m.k.proc 1).state) (by decide +kernel)
  exact ⟨k, last, booted, careful, ends, live,
    fork_copies_exactly smallMem_real.1 smallMem_real.2 booted careful ends 1 live⟩

/-- Init makes a thread and joins it. -/
def joinedRun : List Event :=
  [.dispatch 0, .threadCreate 0 0, .dispatch 1, .threadExit 1 7, .threadJoin 0 2]

/-- The stack of the thread is unmapped, and the size of its master is as before: `fork` stops. -/
theorem fork_stops_after_join :
    (Tables.afterBoot joinedRun).map (fun m => ((m.k.proc 0).state, (m.k.proc 1).state,
      (m.k.proc 0).sz, failure (fork m.k 0))) =
      some (.running, .unused, 3 * PGSIZE, some .copyuvmPageNotPresent) := by
  decide +kernel

end Xv6.Process.Sizes
