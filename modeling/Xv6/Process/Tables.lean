import Xv6.Process.Calls

/- Page directories in runs of calls: who uses one, and when it is freed. -/
namespace Xv6.Process.Tables

open Function Calls Outcome

variable {m next : Machine} {k t u : Kernel} {p q np : Nat} {reserved : List Nat}

theorem consistent_fork {made : Option Nat} (good : Consistent reserved k) (unlinked : Unlinked k)
    (ran : fork k p = .ok (t, made)) : Consistent reserved t := by
  rcases fork_eq ran with ⟨_, same⟩ | ⟨np, found, ⟨_, failed⟩ | ⟨u, allocated, rest⟩⟩
  · rw [same]
    exact good
  · have unused := (unusedSlot_spec found).2
    apply consistent_allocprocRest (consistent_claim good unused) _ _ failed
    · rw [claim_proc, update_self]
    · exact unlisted_claim good.grouped unused
  have whole : allocproc k = (u, some np) := by
    unfold allocproc
    rw [found]
    dsimp only
    rw [allocated]
  obtain ⟨good', embryo, unlisted, stack, master, _⟩ := consistent_allocproc good whole
  have root : (u.proc np).master = none := master.trans (unlinked np found)
  cases made with
  | none => exact consistent_forkRest_none good' embryo unlisted rest
  | some child => exact consistent_forkRest_some good' embryo unlisted root stack rest

theorem consistent_thread_create {arg : Nat} {made : Option Nat} (good : Consistent reserved k)
    (live : Live (k.proc p).state) (ran : thread_create k p arg = .ok (t, made)) :
    Consistent reserved t := by
  obtain ⟨settled, root⟩ := good.grouped.masterOf live.settled
  have alive := good.grouped.masterOf_live live
  rcases thread_create_eq ran with ⟨_, _, same⟩ | ⟨np, found, rest⟩
  · rw [same]
    exact good
  have unused := (unusedSlot_spec found).2
  have different : np ≠ k.masterOf p := by
    intro equal
    rw [equal] at unused
    exact settled.1 unused
  generalize k.masterOf p = master at *
  have claimed : (k.claim np).proc master = k.proc master := by
    rw [claim_proc, update_of_ne different.symm]
  have embryo : ((k.claim np).proc np).state = .embryo := by
    rw [claim_proc, update_self]
  have unlisted := unlisted_claim good.grouped unused
  rw [← claimed] at settled root alive
  have step : ∀ {v : Kernel} {done : Bool}, allocthreadRest (k.claim np) master np = .ok (v, done) →
      Consistent reserved v :=
    consistent_allocthreadRest (consistent_claim good unused) embryo unlisted root settled alive
  rcases rest with ⟨_, failed⟩ | ⟨u, allocated, rest⟩
  · exact step failed
  obtain ⟨mem, frame, i, _, _, _, result⟩ := allocthreadRest_eq_true allocated different
  apply consistent_threadRest (step allocated) (i := i) _ _ rest
  · rw [result, setProc_self]
    exact embryo
  · rw [result, setProc_of_ne different.symm, setProc_self]
    exact update_self _ _ _

theorem consistent_growproc {n : Int} {done : Bool} (good : Consistent reserved k)
    (ran : growproc k p n = .ok (t, done)) : Consistent reserved t := by
  rcases growproc_eq ran with ⟨_, same⟩ | ⟨d, dir, mem, dir', sz, _, present, worked, cases⟩
  · rw [same]
    exact good
  have tidy : Vm.Tidy k.mem dir mem dir' := by
    rcases worked with ⟨_, worked⟩ | ⟨_, worked⟩
    · exact (Vm.allocuvm_spec worked).1
    · exact (Vm.deallocuvm_spec worked).1
  have spaced := good.space present tidy
  rcases cases with ⟨_, _, same⟩ | ⟨_, _, same⟩
  · rw [same]
    exact spaced
  · rw [same]
    apply spaced.set
    · exact ⟨rfl, rfl, rfl, rfl, rfl⟩
    · exact .inl rfl

/-- The process has no threads and is none. -/
def Solo (k : Kernel) (p : Nat) : Prop := (k.proc p).master = none ∧ k.workers p = []
deriving Decidable

/-- `deallocstack` of the thread, when it is a zombie, does not fail. -/
def Returnable (k : Kernel) (w : Nat) : Prop :=
  (k.proc w).state = .zombie → (k.proc w).sz ≠ 0 ∧ stackBase (k.proc w).sz ≠ 0 ∧
    ∀ master ∈ (k.proc w).master, ∃ i < NTHRE, (k.proc master).freeusrspace i = 0

instance (k : Kernel) (w : Nat) : Decidable (Returnable k w) :=
  inferInstanceAs (Decidable (_ → _ ∧ _ ∧ ∀ master ∈ (k.proc w).master, ∃ i < NTHRE, _ = _))

/-- `exec` is called by a process without threads, and `thread_join` can give the stack back. -/
def Careful (m : Machine) : Event → Prop
  | .exec p _ _ => Solo m.k p
  | .threadJoin _ thread => ∀ w ∈ m.k.slotOf thread, Returnable m.k w
  | .joinAgain p => ∀ w ∈ m.joining p, Returnable m.k w
  | event => Gentle m event

theorem Careful.gentle {event : Event} (careful : Careful m event) : Gentle m event := by
  cases event with
  | exec => trivial
  | threadJoin => trivial
  | joinAgain => trivial
  | _ => exact careful

/-- A thread with a stack whose master has room to note it. -/
theorem Returnable.freed {w : Nat} (returnable : Returnable k w)
    (zombie : (k.proc w).state = .zombie) (u : Kernel) : deallocstack k w ≠ .ok (u, false) := by
  intro failed
  obtain ⟨sized, above, room⟩ := returnable zombie
  obtain ⟨page, master, _, link, cases⟩ := deallocstack_eq failed
  rcases cases with ⟨_, full, _⟩ | ⟨i, d, dir, mem, dir', sz, _, _, _, _, unmapped, done, _⟩
  · obtain ⟨i, inside, zero⟩ := room master link
    exact full i inside zero
  · have positive : sz ≠ 0 := by
      rw [(Vm.deallocuvm_spec unmapped).2.1]
      omega
    rw [bne_iff_ne.mpr positive] at done
    cases done

/-- Every call keeps the directories consistent. -/
theorem consistent_step {event : Event} (base : Base m.k m.cpu) (good : Consistent reserved m.k)
    (careful : Careful m event) (taken : step m event = some next) :
    Consistent reserved next.k := by
  cases did_of_step taken with
  | fork _ ran => exact consistent_fork good careful ran
  | threadCreate onCpu ran => exact consistent_thread_create good (base.live onCpu) ran
  | threadExit onCpu ran => exact consistent_thread_exit good (base.live onCpu) ran
  | joinFree => exact good
  | threadJoin onCpu found looks =>
    rw [join_kernel]
    exact consistent_joinLoop good (base.live onCpu) (careful _ found).freed looks
  | joinAgain onCpu waits looks =>
    rw [join_kernel]
    exact consistent_joinLoop good (base.live onCpu) (careful _ waits).freed looks
  | exit onCpu ran => exact consistent_exit good (base.live onCpu).settled ran
  | wait onCpu ran => exact consistent_wait good (base.live onCpu) ran
  | exec onCpu ran =>
    have empty := good.grouped.empty_of_workers careful.2
    exact consistent_exec good (base.live onCpu).settled careful.1 empty ran
  | sbrk _ ran => exact consistent_growproc good ran
  | kill => exact consistent_kill good _
  | dispatch ready _ =>
    apply good.set
    · exact ⟨rfl, rfl, rfl, rfl, rfl⟩
    · rw [ready]
      exact .inr ⟨.inl rfl, .inr (.inl rfl)⟩
  | yield onCpu =>
    apply good.set
    · exact ⟨rfl, rfl, rfl, rfl, rfl⟩
    · exact .inr ⟨base.live onCpu, .inl rfl⟩
  | sleep onCpu =>
    apply good.set
    · exact ⟨rfl, rfl, rfl, rfl, rfl⟩
    · exact .inr ⟨base.live onCpu, .inr (.inr rfl)⟩
  | wakeup => exact consistent_wakeup1 good _

/-- The invariant of runs. -/
structure Good (m : Machine) : Prop where
  base : Base m.k m.cpu
  consistent : Consistent [] m.k

theorem good_step {event : Event} (good : Good m) (careful : Careful m event)
    (taken : step m event = some next) : Good next :=
  ⟨base_step good.base careful.gentle taken,
      consistent_step good.base good.consistent careful taken⟩

theorem good_start {mem : Vm.Mem} {code : Nat → UInt8} (nodup : mem.freelist.Nodup)
    (booted : userinit (Kernel.boot mem) code = .ok k) : Good (Machine.start k) := by
  have consistent := (consistent_userinit [] nodup booted).1
  exact ⟨base_start nodup booted, consistent⟩

/-- In use and not dead. -/
def Alive (state : ProcState) : Prop := state = .embryo ∨ Live state

/-- The directory of everybody alive exists, and a group shares one. -/
def Shared (k : Kernel) : Prop :=
  (∀ p, Alive (k.proc p).state → ∃ d dir, (k.proc p).pgdir = some d ∧ k.pgdirs d = some dir ∧
    d ∉ k.mem.freelist) ∧
  ∀ p q, Alive (k.proc p).state → Alive (k.proc q).state → k.masterOf p = k.masterOf q →
    (k.proc p).pgdir = (k.proc q).pgdir

theorem Good.shared (good : Good m) : Shared m.k := by
  constructor
  · intro p alive
    have enrolled : Enrolled m.k.proc p := by
      rcases alive with embryo | live
      · obtain ⟨i, master, listed⟩ := good.base.embryo p embryo
        exact .inr ⟨master, i, listed⟩
      · exact .inl live.settled
    obtain ⟨d, dir, pgdir, present⟩ := good.consistent.spaces.rooted p enrolled
    exact ⟨d, dir, pgdir, present, good.consistent.sound.not_free present⟩
  · have top : ∀ p, Alive (m.k.proc p).state →
        (m.k.proc p).pgdir = (m.k.proc (m.k.masterOf p)).pgdir := by
      rintro p (embryo | live)
      · obtain ⟨i, master, listed⟩ := good.base.embryo p embryo
        have link := (good.base.grouped.list master i p listed).2.2.1
        unfold Kernel.masterOf
        rw [link]
        exact good.consistent.spaces.shared master i p listed
      · exact good.consistent.pgdir_masterOf live.settled
    intro p q alive alive' same
    rw [top p alive, top q alive', same]

/-- In a run from boot in which `exec` is called by processes without threads, `thread_join` can
give the stack back, groups end while no other member is on a CPU, and `fork` takes no slot that
names a master, the page directory of everybody alive exists, and a group shares one. -/
theorem pgdir_outlives {mem : Vm.Mem} {code : Nat → UInt8} {events : List Event} {last : Machine}
    (nodup : mem.freelist.Nodup) (booted : userinit (Kernel.boot mem) code = .ok k)
    (careful : Run.Steps step Careful (Machine.start k) events)
    (run : Run.exec step (Machine.start k) events = some last) : Shared last.k :=
  (Run.exec_invariant Good (fun _ _ _ good careful taken => good_step good careful taken)
    (good_start nodup booted) careful run).shared

instance (m : Machine) (event : Event) : Decidable (Careful m event) := by
  rcases event <;> dsimp only [Careful] <;> infer_instance

/-- An executable file without segments. -/
def emptyProgram : List UInt8 := [0x7f, 0x45, 0x4c, 0x46] ++ List.replicate 48 0

/-- Init forks a child, which makes a thread. -/
def groupRun : List Event := [.dispatch 0, .fork 0, .dispatch 1, .threadCreate 1 0, .dispatch 2]

/-- The thread exits and is joined, and then its master calls `exec`. -/
def carefulRun : List Event :=
  groupRun ++ [.threadExit 2 7, .threadJoin 1 3, .exec 1 (some emptyProgram) [], .exit 1, .wait 0]

theorem pgdir_outlives_small : ∃ k last, userinit (Kernel.boot smallMem) (fun _ => 0) = .ok k ∧
    Run.Steps step Careful (Machine.start k) carefulRun ∧
    Run.exec step (Machine.start k) carefulRun = some last ∧ Shared last.k := by
  obtain ⟨k, last, booted, ends, careful⟩ := run_small step Machine.start carefulRun
    (fun k _ => Run.Steps step Careful (Machine.start k) carefulRun) (by decide +kernel)
  exact ⟨k, last, booted, careful, ends, pgdir_outlives smallMem_nodup booted careful ends⟩

theorem carefulRun_careful : ∃ k last, userinit (Kernel.boot smallMem) (fun _ => 0) = .ok k ∧
    Run.exec step (Machine.start k) carefulRun = some last ∧
    Run.Steps step Careful (Machine.start k) carefulRun :=
  run_small step Machine.start carefulRun
    (fun k _ => Run.Steps step Careful (Machine.start k) carefulRun) (by decide +kernel)

/-- A page that a process maps is not free and has no other use: it is no kernel stack, no
directory, no page table and no other page. Those with this address space are one group. -/
def Isolated (k : Kernel) : Prop :=
  ∀ p d dir v pte, Settled (k.proc p).state → (k.proc p).pgdir = some d → k.pgdirs d = some dir →
    dir.entry v = some pte → pte.frame ∉ k.mem.freelist ∧
    (∀ use, uses (fun q => (k.proc q).kstack) k.pgdirs use = some pte.frame →
      use = .space d (.page v)) ∧
    ∀ q, Settled (k.proc q).state → (k.proc q).pgdir = some d → k.masterOf q = k.masterOf p

theorem Good.isolated (good : Good m) : Isolated m.k := by
  intro p d dir v pte settled pgdir present mapped
  have used : uses (fun q => (m.k.proc q).kstack) m.k.pgdirs (.space d (.page v)) =
      some pte.frame := by
    show (m.k.pgdirs d).bind _ = _
    rw [present, Option.bind_some, Vm.frameOf, mapped]
    rfl
  have sound := good.consistent.sound
  exact ⟨sound.apart _ _ used, fun use other => sound.injective _ _ _ other used,
    fun q other same => good.consistent.masterOf_eq other settled (same.trans pgdir.symm)⟩

/-- In such a run no process can reach a page of the kernel or of another group through its page
table. -/
theorem processes_isolated {mem : Vm.Mem} {code : Nat → UInt8} {events : List Event}
    {last : Machine} (nodup : mem.freelist.Nodup) (booted : userinit (Kernel.boot mem) code = .ok k)
    (careful : Run.Steps step Careful (Machine.start k) events)
    (run : Run.exec step (Machine.start k) events = some last) : Isolated last.k :=
  (Run.exec_invariant Good (fun _ _ _ good careful taken => good_step good careful taken)
    (good_start nodup booted) careful run).isolated

theorem processes_isolated_small : ∃ k last, userinit (Kernel.boot smallMem) (fun _ => 0) = .ok k ∧
    Run.exec step (Machine.start k) carefulRun = some last ∧ Isolated last.k := by
  obtain ⟨k, last, booted, run, careful⟩ := carefulRun_careful
  exact ⟨k, last, booted, run, processes_isolated smallMem_nodup booted careful run⟩

/-- In a run whose groups end gently, the lists of masters and the links of workers agree, and a
thread lives only as long as its master. -/
theorem groups_agree {mem : Vm.Mem} {code : Nat → UInt8} {events : List Event} {last : Machine}
    (nodup : mem.freelist.Nodup) (booted : userinit (Kernel.boot mem) code = .ok k)
    (gentle : Run.Steps step Gentle (Machine.start k) events)
    (run : Run.exec step (Machine.start k) events = some last) : Grouped last.k.proc ∧
    ∀ p, Live (last.k.proc p).state → Settled (last.k.proc (last.k.masterOf p)).state ∧
      (last.k.proc (last.k.masterOf p)).state ≠ .zombie := by
  have base : Base last.k last.cpu := Run.exec_invariant (fun m : Machine => Base m.k m.cpu)
    (fun _ _ _ base gentle taken => base_step base gentle taken) (base_start nodup booted) gentle
      run
  exact ⟨base.grouped, fun p live => ⟨(base.grouped.masterOf live.settled).1,
      base.grouped.masterOf_live live⟩⟩

theorem groups_agree_small : ∃ k last, userinit (Kernel.boot smallMem) (fun _ => 0) = .ok k ∧
    Run.exec step (Machine.start k) carefulRun = some last ∧ Grouped last.k.proc := by
  obtain ⟨k, last, booted, run, careful⟩ := carefulRun_careful
  have gentle := careful.mono fun _ _ step => Careful.gentle step
  exact ⟨k, last, booted, run, (groups_agree smallMem_nodup booted gentle run).1⟩

/-- The state after a run from boot on the small machine. -/
def afterBoot (events : List Event) : Option Machine :=
  bootSmall.bind fun k => Run.exec step (Machine.start k) events

/-- Whether the directory of a process exists, with the state of the process. -/
def tableOf (m : Machine) (p : Nat) : ProcState × Bool :=
  ((m.k.proc p).state, ((m.k.proc p).pgdir.bind m.k.pgdirs).isSome)

/-- `exec` by the master takes the directory away from its thread, and `exec` by the thread takes it
away from its master. -/
theorem exec_frees_shared :
    (afterBoot groupRun).map (fun m => (tableOf m 1, tableOf m 2)) =
      some ((.running, true), (.running, true)) ∧
    (afterBoot (groupRun ++ [.exec 1 (some emptyProgram) []])).map
      (fun m => (tableOf m 1, tableOf m 2, m.k.masterOf 2)) =
      some ((.running, true), (.running, false), 1) ∧
    (afterBoot (groupRun ++ [.exec 2 (some emptyProgram) []])).map
      (fun m => (tableOf m 1, tableOf m 2)) = some ((.running, false), (.running, true)) := by
  decide +kernel

end Xv6.Process.Tables
