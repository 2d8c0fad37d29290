import Xv6.Process.Records
import Xv6.Process.Tables
import Xv6.Vm.Total

/- The size of a process and the pages of its address space in runs of calls. -/
namespace Xv6.Process.Sizes

open Function Calls Outcome Vm Tables List

variable {m next : Machine} {k t u : Kernel} {p q np d e i : Nat} {dir dir' : Pgdir}
    {before after : ProcState} {oldsz newsz sz master arg : Nat} {made : Option Nat}
    {mem mem' : Mem} {event : Event} {code : Nat → UInt8}
  {reserved : List Nat}

theorem live_of_settled {state : ProcState} (settled : Settled state) (alive : state ≠ .zombie) :
    Live state := by
  cases state with
  | unused => exact absurd rfl settled.1
  | embryo => exact absurd rfl settled.2
  | sleeping => exact .inr (.inr rfl)
  | runnable => exact .inl rfl
  | running => exact .inr (.inl rfl)
  | zombie => exact absurd rfl alive

/-- All pages below the size of the process are present. -/
def Fits (k : Kernel) (p : Nat) : Prop :=
  (k.proc p).sz < KERNBASE ∧
  ∀ d dir, (k.proc p).pgdir = some d → k.pgdirs d = some dir → dir.Covers (k.proc p).sz

structure Sized (k : Kernel) : Prop where
  fits : ∀ p, Live (k.proc p).state → Fits k p
  below : ∀ m i w, (k.proc m).workerthread i = some w → Live (k.proc w).state →
    (k.proc w).sz ≤ (k.proc m).sz

/-- Nobody becomes live, and no size and no directory changes. -/
theorem Sized.keep (sized : Sized k) (members : ∀ q, Live (t.proc q).state → Live (k.proc q).state ∧
      (t.proc q).sz = (k.proc q).sz ∧ (t.proc q).pgdir = (k.proc q).pgdir)
    (lists : ∀ m i w, (t.proc m).workerthread i = some w → Live (t.proc w).state →
      (k.proc m).workerthread i = some w ∧ (t.proc m).sz = (k.proc m).sz)
    (dirs : ∀ d dir, t.pgdirs d = some dir → k.pgdirs d = some dir) : Sized t := by
  constructor
  · intro q live
    obtain ⟨before, sz, pgdir⟩ := members q live
    obtain ⟨bound, covers⟩ := sized.fits q before
    refine ⟨sz ▸ bound, fun d dir has present => ?_⟩
    rw [sz]
    exact covers d dir (pgdir ▸ has) (dirs d dir present)
  · intro m i w listed live
    obtain ⟨before, sz, _⟩ := members w live
    obtain ⟨listed', sz'⟩ := lists m i w listed live
    rw [sz, sz']
    exact sized.below m i w listed' before

theorem Sized.moves (sized : Sized k) (ties : ∀ q, SameTies (k.proc q) (t.proc q))
    (record : ∀ q, (t.proc q).sz = (k.proc q).sz) (pgdirs : t.pgdirs = k.pgdirs)
    (live : ∀ q, Live (t.proc q).state → Live (k.proc q).state) : Sized t := by
  apply sized.keep
  · exact fun q alive => ⟨live q alive, record q, (ties q).pgdir⟩
  · intro m i w listed _
    rw [(ties m).workerthread] at listed
    exact ⟨listed, record m⟩
  · intro d dir present
    rw [pgdirs] at present
    exact present

theorem Sized.set {new : Proc} (sized : Sized k) (live : Live (k.proc p).state)
    (live' : Live new.state) (ties : SameTies (k.proc p) new) (size : new.sz = (k.proc p).sz) :
    Sized (k.setProc p new) := by
  apply sized.moves
  · exact fun q => SameTies.set (SameTies.refl _) ties
  · exact fun q => setProc_same Proc.sz size q
  · rfl
  · exact fun q => (setProc_moves (.inr ⟨live, live'⟩) q).live.mp

theorem Sized.space (sized : Sized k)
    (elsewhere : ∀ e dir, e ≠ d → t.pgdirs e = some dir → k.pgdirs e = some dir)
    (inside : ∀ q, Live (t.proc q).state → (t.proc q).pgdir = some d → (t.proc q).sz < KERNBASE ∧
      ∀ dir, t.pgdirs d = some dir → dir.Covers (t.proc q).sz)
    (outside : ∀ q, Live (t.proc q).state → (t.proc q).pgdir ≠ some d → Live (k.proc q).state ∧
      (t.proc q).sz = (k.proc q).sz ∧ (t.proc q).pgdir = (k.proc q).pgdir)
    (below : ∀ m i w, (t.proc m).workerthread i = some w → Live (t.proc w).state →
      (t.proc w).sz ≤ (t.proc m).sz) : Sized t := by
  refine ⟨fun q live => ?_, below⟩
  by_cases here : (t.proc q).pgdir = some d
  · obtain ⟨bound, covers⟩ := inside q live here
    refine ⟨bound, fun e dir has present => ?_⟩
    rw [here] at has
    cases has
    exact covers dir present
  · obtain ⟨before, sz, pgdir⟩ := outside q live here
    obtain ⟨bound, covers⟩ := sized.fits q before
    refine ⟨sz ▸ bound, fun e dir has present => ?_⟩
    rw [sz]
    apply covers e dir (pgdir ▸ has) (elsewhere e dir _ present)
    intro same
    rw [same] at has
    exact here has

theorem masterOf_live (grouped : Grouped k.proc) (live : Live (k.proc p).state) :
    Live (k.proc (k.masterOf p)).state :=
  live_of_settled (grouped.masterOf live.settled).1 (grouped.masterOf_live live)

section

variable (sized : Sized k)
include sized

/-- A member is not larger than its master. -/
theorem Sized.member (grouped : Grouped k.proc) (live : Live (k.proc q).state) :
    (k.proc q).sz ≤ (k.proc (k.masterOf q)).sz := by
  unfold Kernel.masterOf
  cases link : (k.proc q).master with
  | none => exact Nat.le_refl _
  | some m => exact sized.below m _ q (grouped.link q m live.settled link) live

theorem Sized.ends {gone : Nat → Prop} {head : Nat} (ends : Ended gone head k t) : Sized t :=
  sized.moves ends.ties (fun q => (ends.record q).2.1) ends.memory.pgdirs fun _ live =>
    (ends.live live).2

theorem sized_thread_exit {retval : Nat} (grouped : Grouped k.proc) (live : Live (k.proc p).state)
    (ran : thread_exit k p retval = .ok t) : Sized t := by
  obtain ⟨link, ran⟩ | ⟨master, link⟩ := thread_exit_cases ran
  · exact sized.ends (ended_exit grouped live.settled ran)
  · exact sized.ends (ended_thread_exit grouped live link ran)

theorem sized_wait {progress : Progress} (grouped : Grouped k.proc) (live : Live (k.proc p).state)
    (ran : wait k p = .ok (t, progress)) : Sized t := by
  rcases wait_eq ran with ⟨_, same⟩ | ⟨_, same⟩ |
    ⟨c, u, page, d, dir, mem, found, reclaim, _, _, _, _, _, same⟩
  · rw [same]
    exact sized
  · rw [same]
    exact sized.set live (.inr (.inr rfl)) ⟨rfl, rfl, rfl, rfl, rfl⟩ rfl
  obtain ⟨_, pgdirs, _⟩ := reclaimWorkers_eq reclaim fun i w listed => grouped.ne_master listed
  obtain ⟨gone, others⟩ := wait_found grouped found ran
  have stays : ∀ q, (t.proc q).state ≠ .unused → t.proc q = k.proc q :=
    fun q used => others q fun leaves => used (gone q leaves).1
  apply sized.keep
  · intro q alive
    have same := stays q alive.settled.1
    rw [same] at alive ⊢
    exact ⟨alive, rfl, rfl⟩
  · intro m i w listed _
    have used := ((grouped_wait grouped live ran).top m i w listed).1.1
    rw [stays m used] at listed ⊢
    exact ⟨listed, rfl⟩
  · intro e dir present
    rw [same] at present
    change update u.pgdirs d none e = some dir at present
    rw [update_apply, pgdirs] at present
    split at present
    · cases present
    · exact present

theorem Sized.dormant (np : Nat) (grouped : Grouped t.proc)
    (others : ∀ q, q ≠ np → t.proc q = k.proc q) (dormant : ¬ Settled (t.proc np).state)
    (pgdirs : t.pgdirs = k.pgdirs) : Sized t := by
  apply sized.keep
  · intro q live
    have other : q ≠ np := by
      intro here
      rw [here] at live
      exact dormant live.settled
    rw [others q other] at live ⊢
    exact ⟨live, rfl, rfl⟩
  · intro m i w listed _
    have other : m ≠ np := by
      intro here
      rw [here, grouped.empty_of_unsettled dormant i] at listed
      cases listed
    rw [others m other] at listed ⊢
    exact ⟨listed, rfl⟩
  · intro d dir present
    rw [pgdirs] at present
    exact present

end

/-- The members of the group of `p` are those with its directory. -/
theorem masterOf_of_pgdir (good : Consistent reserved k) (live : Live (k.proc p).state)
    (live' : Live (k.proc q).state) (here : (k.proc (k.masterOf p)).pgdir = some d)
    (same : (k.proc q).pgdir = some d) : k.masterOf q = k.masterOf p := by
  apply good.masterOf_eq live'.settled live.settled
  rw [same, good.pgdir_masterOf live.settled, here]

/-- A process without a group gets a new directory. -/
theorem Sized.rehouse {new : Proc} (sized : Sized k) (good : Consistent reserved k)
    (empty : ∀ i, (k.proc p).workerthread i = none) (unlisted : Unlisted k.proc p)
    (free : d ∈ k.mem.freelist) (proc : t.proc = update k.proc p new)
    (lists : new.workerthread = (k.proc p).workerthread) (pgdir : new.pgdir = some d)
    (elsewhere : ∀ e dir, e ≠ d → t.pgdirs e = some dir → k.pgdirs e = some dir)
    (bound : new.sz < KERNBASE) (covers : ∀ dir, t.pgdirs d = some dir → dir.Covers new.sz) :
    Sized t := by
  have own : t.proc p = new := by
    rw [proc, update_self]
  have others : ∀ q, q ≠ p → t.proc q = k.proc q := by
    intro q other
    rw [proc, update_of_ne other]
  apply sized.space elsewhere
  · intro q alive here
    by_cases isNew : q = p
    · rw [isNew, own]
      exact ⟨bound, covers⟩
    · rw [others q isNew] at alive here
      exact absurd here (good.fresh free (.inl alive.settled))
  · intro q alive away
    have other : q ≠ p := by
      intro here
      rw [here, own] at away
      exact away pgdir
    rw [others q other] at alive ⊢
    exact ⟨alive, rfl, rfl⟩
  · intro m i w listed alive
    have head : m ≠ p := by
      intro here
      rw [here, own, lists, empty i] at listed
      cases listed
    rw [others m head] at listed ⊢
    have worker : w ≠ p := by
      intro here
      rw [here] at listed
      exact unlisted m i listed
    rw [others w worker] at alive ⊢
    exact sized.below m i w listed alive

/-- The child has a copy of all pages below the size. -/
theorem sized_forkRest (sized : Sized k) (good : Consistent reserved k)
    (embryo : (k.proc np).state = .embryo) (unlisted : Unlisted k.proc np)
    (live : Live (k.proc p).state) (grouped : Grouped t.proc)
    (ran : forkRest k p np = .ok (t, made)) : Sized t := by
  obtain ⟨e, dir, mem, pgdir, present, ⟨_, _, page, _, same⟩ | ⟨d, new, copied, _, same⟩⟩ :=
    forkRest_eq ran
  · apply sized.dormant np grouped
    · intro q other
      rw [same, setProc_of_ne other]
      rfl
    · rw [same, setProc_self]
      exact fun settled => settled.1 rfl
    · rw [same]
      rfl
  · obtain ⟨_, _, free, _, copy⟩ :=
      copyuvm_spec copied good.sound (good.sound.page_not_free present)
    have pgdirs : t.pgdirs = update k.pgdirs d (some new) := by
      rw [same]
      rfl
    apply sized.rehouse good (good.grouped.empty_of_unsettled fun settled =>
      settled.2 embryo) unlisted free
      (congrArg Kernel.proc same) rfl rfl
    · intro e dir other there
      rw [pgdirs, update_of_ne other] at there
      exact there
    · exact (sized.fits p live).1
    · intro dir there
      rw [pgdirs, update_self] at there
      cases there
      intro v below
      obtain ⟨pte, frame, _, entry, _⟩ := copy v below
      rw [entry]
      exact Option.some_ne_none _

theorem sized_fork (sized : Sized k) (good : Consistent reserved k) (unlinked : Unlinked k)
    (live : Live (k.proc p).state) (ran : fork k p = .ok (t, made)) : Sized t := by
  have after := consistent_fork good unlinked ran
  rcases fork_eq ran with ⟨_, same⟩ | ⟨np, found, ⟨_, failed⟩ | ⟨u, allocated, rest⟩⟩
  · rw [same]
    exact sized
  · have same := (allocStack_false (allocprocRest_false failed)).1
    apply sized.dormant np after.grouped
    · intro q other
      rw [same, setProc_of_ne other, claim_proc, update_of_ne other]
    · rw [same, setProc_self]
      exact fun settled => settled.1 rfl
    · rw [same]
      rfl
  · have whole : allocproc k = (u, some np) := by
      unfold allocproc
      rw [found]
      dsimp only
      rw [allocated]
    obtain ⟨good', embryo, unlisted, _, _, ⟨_, unused⟩, others⟩ := consistent_allocproc good whole
    obtain ⟨mem, frame, _, memory, _⟩ := allocprocRest_eq_true allocated
    have sized' : Sized u :=
      sized.dormant np good'.grouped others (fun settled => settled.2 embryo) memory.pgdirs
    apply sized_forkRest sized' good' embryo unlisted _ after.grouped rest
    rw [others p]
    · exact live
    · intro equal
      rw [equal, unused] at live
      exact live.settled.1 rfl

/-- No stack that was given back waits for a new thread. -/
def Fresh (k : Kernel) (p : Nat) : Prop := freeStack (k.proc (k.masterOf p)) = none
deriving Decidable

/-- `allocuvm` from the size on does not touch the pages below it, also when it fails. -/
theorem covers_allocuvm_old (covers : dir.Covers oldsz)
    (ran : allocuvm mem dir oldsz newsz = .ok (mem', dir', sz)) : dir'.Covers oldsz := by
  apply covers.keep
  intro v below present
  rcases (allocuvm_spec ran).2 with ⟨_, _, _, _, old⟩ | ⟨_, _, old⟩ | ⟨_, old | ⟨_, old⟩⟩
  · rw [old v (.inl below)]
    exact present
  · rw [old v]
    exact present
  · rw [old v]
    exact present
  · rw [old v, if_neg (by omega)]
    exact present

theorem allocuvm_bound (bound : oldsz < KERNBASE)
    (ran : allocuvm mem dir oldsz newsz = .ok (mem', dir', sz)) :
    sz < KERNBASE ∧ (sz = 0 ∨ oldsz ≤ sz) := by
  rcases (allocuvm_spec ran).2 with ⟨new, larger, below, _⟩ | ⟨old, _⟩ | ⟨zero, _⟩
  · rw [new]
    exact ⟨below, .inr larger⟩
  · rw [old]
    exact ⟨bound, .inr (Nat.le_refl _)⟩
  · rw [zero]
    exact ⟨by decide, .inl rfl⟩

section

variable (sized : Sized k)
include sized

/-- Those who have the directory of a master are not larger than it. -/
theorem Sized.sharer (good : Consistent reserved k) (live : Live (k.proc master).state)
    (root : (k.proc master).master = none) (pgdir : (k.proc master).pgdir = some d)
    (live' : Live (k.proc q).state) (same : (k.proc q).pgdir = some d) :
    (k.proc q).sz ≤ (k.proc master).sz := by
  have group : k.masterOf q = master := by
    have top :=
      masterOf_of_pgdir (p := master) good live live' (by rw [masterOf_self root, pgdir]) same
    rw [top, masterOf_self root]
  rw [← group]
  exact sized.member good.grouped live'

/-- A thread joins the group of `master`, whose address space may grow for its stack. -/
theorem Sized.hire {top new : Proc} (good : Consistent reserved k)
    (live : Live (k.proc master).state) (root : (k.proc master).master = none)
    (unused : (k.proc np).state = .unused) (pgdir : (k.proc master).pgdir = some d)
    (pgdirs : t.pgdirs = update k.pgdirs d (some dir'))
    (proc : t.proc = update (update k.proc master top) np new)
    (larger : (k.proc master).sz ≤ top.sz) (bound : top.sz < KERNBASE) (covers : dir'.Covers top.sz)
    (shares : top.pgdir = some d ∧ new.pgdir = some d)
    (lists : ∀ j w, top.workerthread j = some w → w = np ∨ (k.proc master).workerthread j = some w)
    (empty : new.workerthread = (k.proc np).workerthread)
    (fits : Live new.state → new.sz ≤ top.sz) :
    Sized t := by
  have different : master ≠ np := fun equal => live.settled.1 (equal ▸ unused)
  have own : t.proc np = new := by
    rw [proc, update_self]
  have head : t.proc master = top := by
    rw [proc, update_of_ne different, update_self]
  have rest : ∀ q, q ≠ np → q ≠ master → t.proc q = k.proc q := by
    intro q other notMaster
    rw [proc, update_of_ne other, update_of_ne notMaster]
  apply sized.space (d := d)
  · intro e dir other there
    rw [pgdirs, update_of_ne other] at there
    exact there
  · intro q alive here
    have below : (t.proc q).sz ≤ top.sz := by
      by_cases isNew : q = np
      · rw [isNew, own] at alive ⊢
        exact fits alive
      · by_cases isMaster : q = master
        · rw [isMaster, head]
        · rw [rest q isNew isMaster] at alive here ⊢
          exact Nat.le_trans (sized.sharer good live root pgdir alive here) larger
    refine ⟨Nat.lt_of_le_of_lt below bound, fun dir there => ?_⟩
    rw [pgdirs, update_self] at there
    cases there
    exact covers.mono below
  · intro q alive away
    have other : q ≠ np := by
      rintro rfl
      exact away (own ▸ shares.2)
    have notMaster : q ≠ master := by
      rintro rfl
      exact away (head ▸ shares.1)
    rw [rest q other notMaster] at alive ⊢
    exact ⟨alive, rfl, rfl⟩
  · intro m j w listed alive
    have leads : m ≠ np := by
      rintro rfl
      rw [own, empty, good.grouped.empty_of_unsettled (fun settled => settled.1 unused) j] at listed
      cases listed
    have old : (k.proc m).workerthread j = some w → w ≠ np ∧ w ≠ master := by
      intro before
      refine ⟨?_, ?_⟩
      · rintro rfl
        exact good.grouped.unlisted_of_unused unused m j before
      · rintro rfl
        rw [(good.grouped.list m j w before).2.2.1] at root
        cases root
    by_cases isMaster : m = master
    · rw [isMaster, head] at listed ⊢
      rcases lists j w listed with isNew | before
      · rw [isNew, own] at alive ⊢
        exact fits alive
      · rw [← isMaster] at before
        obtain ⟨other, notMaster⟩ := old before
        rw [rest w other notMaster] at alive ⊢
        rw [isMaster] at before
        exact Nat.le_trans (sized.below master j w before alive) larger
    · rw [rest m leads isMaster] at listed ⊢
      obtain ⟨other, notMaster⟩ := old listed
      rw [rest w other notMaster] at alive ⊢
      exact sized.below m j w listed alive

theorem sized_thread_create (good : Consistent reserved k) (live : Live (k.proc p).state)
    (fresh : Fresh k p) (ran : thread_create k p arg = .ok (t, made)) : Sized t := by
  have after := consistent_thread_create good live ran
  have alive := masterOf_live good.grouped live
  obtain ⟨settled, root⟩ := good.grouped.masterOf live.settled
  unfold Fresh at fresh
  cases created_of_thread_create settled.1 ran with
  | noSlot _ _ same =>
    rw [same]
    exact sized
  | noPage np found _ _ same =>
    apply sized.dormant np after.grouped
    · intro q other
      rw [same, setProc_of_ne other, claim_proc, update_of_ne other]
    · rw [same, setProc_self]
      exact fun settled => settled.1 rfl
    · rw [same]
      rfl
  | listed np i d frame sz mem mem' dir dir' dir'' top state found _ _ _ pgdir present grown stack _
      pgdirs _ proc =>
    have unused := (unusedSlot_spec found).2
    generalize k.masterOf p = master at *
    obtain ⟨bound, covers⟩ := sized.fits master alive
    have old := covers d dir pgdir present
    have start : stackStart (k.proc master) = (k.proc master).sz := by
      unfold stackStart
      rw [fresh]
    rw [start] at grown
    have lists : ∀ j w, (enlist (k.proc master) i np).workerthread j = some w →
        w = np ∨ (k.proc master).workerthread j = some w := by
      intro j w listed
      change update (k.proc master).workerthread i (some np) j = some w at listed
      rw [update_apply] at listed
      split at listed
      · exact .inl (Option.some.inj listed).symm
      · exact .inr listed
    rcases stack with ⟨zero, rfl, rfl, rfl, _⟩ | ⟨positive, guarded, rfl, _⟩
    · apply sized.hire good alive root unused pgdir pgdirs proc (Nat.le_refl _) bound
        (covers_allocuvm_old old grown) ⟨pgdir, pgdir⟩ lists rfl
      exact fun embryo => absurd embryo not_live_embryo
    · have lent :
          lend (enlist (k.proc master) i np) sz = { enlist (k.proc master) i np with sz :=
          sz } := by
        unfold lend
        rw [show freeStack (enlist (k.proc master) i np) = none from fresh]
      rw [lent] at proc
      obtain ⟨below, larger⟩ := allocuvm_bound bound grown
      exact sized.hire good alive root unused pgdir pgdirs proc (larger.resolve_left positive) below
        (covers_clearpteu (covers_allocuvm old grown positive) guarded) ⟨pgdir, pgdir⟩ lists rfl
        fun _ => Nat.le_refl sz

end

/-- A smaller size leaves the stacks of live threads where they are. -/
def Keeps (k : Kernel) (p : Nat) (n : Int) : Prop :=
  n < 0 → grown (k.proc (k.masterOf p)).sz n < (k.proc (k.masterOf p)).sz →
    0 < grown (k.proc (k.masterOf p)).sz n ∧ ∀ w ∈ k.workers (k.masterOf p),
      Live (k.proc w).state → (k.proc w).sz ≤ grown (k.proc (k.masterOf p)).sz n

instance (k : Kernel) (p : Nat) (n : Int) : Decidable (Keeps k p n) :=
  inferInstanceAs (Decidable (_ → _ → _ ∧ ∀ w ∈ k.workers (k.masterOf p), Live _ → _ ≤ _))

theorem Sized.resize (sized : Sized k) (good : Consistent reserved k)
    (root : (k.proc master).master = none) (pgdir : (k.proc master).pgdir = some d)
    (fits : ∀ q, Live (k.proc q).state → (k.proc q).pgdir = some d → q ≠ master →
    (k.proc q).sz ≤ sz) (covers : dir'.Covers sz) (bound : sz < KERNBASE) (pgdirs :
    t.pgdirs = update k.pgdirs d (some dir'))
    (proc : t.proc = update k.proc master { k.proc master with sz := sz }) : Sized t := by
  have top : t.proc master = { k.proc master with sz := sz } := by
    rw [proc, update_self]
  have others : ∀ q, q ≠ master → t.proc q = k.proc q := by
    intro q other
    rw [proc, update_of_ne other]
  apply sized.space (d := d)
  · intro e dir other there
    rw [pgdirs, update_of_ne other] at there
    exact there
  · intro q alive here
    have small : (t.proc q).sz ≤ sz := by
      by_cases isMaster : q = master
      · rw [isMaster, top]
      · rw [others q isMaster] at alive here ⊢
        exact fits q alive here isMaster
    refine ⟨Nat.lt_of_le_of_lt small bound, fun dir there => ?_⟩
    rw [pgdirs, update_self] at there
    cases there
    exact covers.mono small
  · intro q alive away
    have notMaster : q ≠ master := by
      intro here
      rw [here, top] at away
      exact away pgdir
    rw [others q notMaster] at alive ⊢
    exact ⟨alive, rfl, rfl⟩
  · intro m j w listed alive
    by_cases isMaster : m = master
    · rw [isMaster, top] at listed ⊢
      have worker := good.grouped.ne_master listed
      rw [others w worker] at alive ⊢
      exact fits w alive ((good.spaces.shared master j w listed).trans pgdir) worker
    rw [others m isMaster] at listed ⊢
    have worker : w ≠ master := by
      intro here
      rw [here] at listed
      rw [(good.grouped.list m j master listed).2.2.1] at root
      cases root
    rw [others w worker] at alive ⊢
    exact sized.below m j w listed alive

theorem sized_growproc {n : Int} {done : Bool} (sized : Sized k) (good : Consistent reserved k)
    (live : Live (k.proc p).state) (keeps : Keeps k p n)
    (ran : growproc k p n = .ok (t, done)) : Sized t := by
  have alive := masterOf_live good.grouped live
  have root := (good.grouped.masterOf live.settled).2
  rcases growproc_eq ran with ⟨_, same⟩ | ⟨d, dir, mem, dir', sz, pgdir, present, worked, cases⟩
  · rw [same]
    exact sized
  obtain ⟨bound, covers⟩ := sized.fits _ alive
  have old := covers d dir pgdir present
  have small := fun q (alive' : Live (k.proc q).state) (here : (k.proc q).pgdir = some d) =>
    sized.sharer good alive root pgdir alive' here
  -- a failed call leaves all pages below the size, and one that works all below the new one
  have result : (sz = 0 → dir'.Covers (k.proc (k.masterOf p)).sz) ∧
      (sz ≠ 0 → dir'.Covers sz ∧ sz < KERNBASE ∧ ∀ q, Live (k.proc q).state →
        (k.proc q).pgdir = some d → q ≠ k.masterOf p → (k.proc q).sz ≤ sz) := by
    rcases worked with ⟨_, worked⟩ | ⟨negative, worked⟩
    · obtain ⟨below, larger⟩ := allocuvm_bound bound worked
      refine ⟨fun _ => covers_allocuvm_old old worked, fun positive => ?_⟩
      refine ⟨covers_allocuvm old worked positive, below, fun q alive' here _ => ?_⟩
      exact Nat.le_trans (small q alive' here) (larger.resolve_left positive)
    obtain ⟨_, size, entries⟩ := deallocuvm_spec worked
    by_cases shrinks : grown (k.proc (k.masterOf p)).sz n < (k.proc (k.masterOf p)).sz
    · obtain ⟨positive, above⟩ := keeps negative shrinks
      have isNew : sz = grown (k.proc (k.masterOf p)).sz n := by omega
      refine ⟨fun zero => by omega, fun _ => ⟨?_, by omega, fun q alive' here other => ?_⟩⟩
      · rw [isNew]
        apply (old.mono (Nat.le_of_lt shrinks)).keep
        intro v below there
        rw [entries v, if_neg (by omega)]
        exact there
      · have group := masterOf_of_pgdir good live alive' pgdir here
        have member := good.grouped.member alive'.settled
        rw [group] at member
        rw [isNew]
        exact above q (member.resolve_left other) alive'
    · have isOld : sz = (k.proc (k.masterOf p)).sz := by omega
      have kept : dir'.Covers (k.proc (k.masterOf p)).sz := by
        apply old.keep
        intro v below there
        have order := pages_le (Nat.le_of_not_lt shrinks)
        rw [entries v, if_neg (by omega)]
        exact there
      refine ⟨fun _ => kept, fun _ => ?_⟩
      rw [isOld]
      exact ⟨kept, bound, fun q alive' here _ => small q alive' here⟩
  rcases cases with ⟨_, zero, same⟩ | ⟨_, positive, same⟩
  · apply sized.resize good root pgdir
      (fun q alive' here _ => small q alive' here) (result.1 zero) bound
    · rw [same]
      rfl
    · rw [same]
      exact (update_eq_self _ _).symm
  · obtain ⟨new, below, fits⟩ := result.2 positive
    apply sized.resize good root pgdir fits new below
    · rw [same]
      rfl
    · rw [same]
      rfl

/-- The stack of the thread, when it is a zombie, is above all live members of its group. -/
def OnTop (k : Kernel) (w : Nat) : Prop :=
  (k.proc w).state = .zombie → ∀ q ∈ members k w, Live (k.proc q).state →
    (k.proc q).sz ≤ stackBase (k.proc w).sz

instance (k : Kernel) (w : Nat) : Decidable (OnTop k w) :=
  inferInstanceAs (Decidable (_ → ∀ q ∈ members k w, Live _ → _ ≤ _))

theorem sized_joinLoop {join : Nat} {progress : Progress} (sized : Sized k)
    (good : Consistent reserved k) (live : Live (k.proc p).state) (onTop : OnTop k join)
    (freed : (k.proc join).state = .zombie → ∀ u, deallocstack k join ≠ .ok (u, false))
    (ran : joinLoop k p join = .ok (t, progress)) : Sized t := by
  rcases joinLoop_eq ran with ⟨_, _, same⟩ | ⟨zombie, _, failed⟩ | ⟨_, _, _, _, _, value, _⟩
  · rw [same]
    exact sized.set live (.inr (.inr rfl)) ⟨rfl, rfl, rfl, rfl, rfl⟩ rfl
  · exact absurd failed (freed zombie t)
  rw [value] at ran
  obtain ⟨master, i, page, d, dir, mem, dir', sz, zombie, link, listed, _, _, _, _, pgdir, present,
    unmapped, _, pgdirs, proc⟩ := joinLoop_done good.grouped ran
  obtain ⟨_, _, entries⟩ := deallocuvm_spec unmapped
  have settled : Settled (k.proc join).state := by
    rw [zombie]
    exact ⟨ProcState.noConfusion, ProcState.noConfusion⟩
  have kept : ∀ q, q ≠ join → (t.proc q).state = (k.proc q).state ∧
      (t.proc q).sz = (k.proc q).sz ∧ (t.proc q).pgdir = (k.proc q).pgdir := by
    intro q other
    rw [proc, update_of_ne other, update_apply]
    split
    · rename_i isMaster
      rw [isMaster]
      exact ⟨rfl, rfl, rfl⟩
    · exact ⟨rfl, rfl, rfl⟩
  have stays : ∀ q, Live (t.proc q).state → q ≠ join := by
    intro q alive here
    rw [here, proc, update_self] at alive
    exact alive.settled.1 rfl
  apply sized.space (d := d)
  · intro e dir other there
    rw [pgdirs, update_of_ne other] at there
    exact there
  · intro q alive here
    obtain ⟨state, size, directory⟩ := kept q (stays q alive)
    rw [state] at alive
    rw [directory] at here
    rw [size]
    obtain ⟨bound, covers⟩ := sized.fits q alive
    refine ⟨bound, fun dir there => ?_⟩
    rw [pgdirs, update_self] at there
    cases there
    have member : q ∈ members k join := by
      have group := good.masterOf_eq alive.settled settled (here.trans pgdir.symm)
      have member := good.grouped.member alive.settled
      rw [group] at member
      exact mem_cons.mpr member
    have order := pages_le (onTop zombie q member alive)
    apply (covers d _ here present).keep
    intro v below there
    rw [entries v, if_neg (by omega)]
    exact there
  · intro q alive _
    obtain ⟨state, same⟩ := kept q (stays q alive)
    exact ⟨state ▸ alive, same⟩
  · intro m j w listed' alive
    have other := stays w alive
    have head : m ≠ join := by
      intro here
      rw [here, proc, update_self, good.grouped.empty_of_worker link j] at listed'
      cases listed'
    have before : (k.proc m).workerthread j = some w := by
      rw [proc, update_of_ne head, update_apply] at listed'
      split at listed'
      · rename_i isMaster
        change update (k.proc master).workerthread _ none j = some w at listed'
        rw [update_apply] at listed'
        split at listed'
        · cases listed'
        · rw [isMaster]
          exact listed'
      · exact listed'
    rw [(kept w other).1] at alive
    rw [(kept w other).2.1, (kept m head).2.1]
    exact sized.below m j w before alive

theorem sized_exec {done : Bool} {file : Option (List UInt8)} {argv : List (List UInt8)}
    (sized : Sized k) (good : Consistent reserved k) (solo : Solo k p)
    (ran : exec k p file argv = .ok (t, done)) : Sized t := by
  rcases (exec_spec good.sound ran).2 with ⟨_, mem, same⟩ |
    ⟨_, mem, d, dir, e, sz, pgdir, free, covers, bound, same⟩
  · rw [same]
    exact ⟨sized.fits, sized.below⟩
  have pgdirs : t.pgdirs = update (update k.pgdirs d (some dir)) e none := by
    rw [same]
    rfl
  have empty := good.grouped.empty_of_workers solo.2
  have unlisted := good.grouped.unlisted_of_root solo.1
  apply sized.rehouse good empty unlisted free (congrArg Kernel.proc same) rfl rfl
  · intro e' dir' other there
    rw [pgdirs, update_apply] at there
    split at there
    · cases there
    · rw [update_of_ne other] at there
      exact there
  · exact bound
  · intro dir' there
    rw [pgdirs, update_apply] at there
    split at there
    · cases there
    · rw [update_self] at there
      cases there
      exact covers

/-- New threads take new memory, threads are joined from the top of the address space, and `sbrk`
takes no stack of a live thread away. -/
def Careful (m : Machine) : Event → Prop
  | .threadCreate p _ => Fresh m.k p
  | .threadJoin _ thread => ∀ w ∈ m.k.slotOf thread, Tables.Returnable m.k w ∧ OnTop m.k w
  | .joinAgain p => ∀ w ∈ m.joining p, Tables.Returnable m.k w ∧ OnTop m.k w
  | .sbrk p n => Keeps m.k p n
  | event => Tables.Careful m event

theorem Careful.tables (careful : Careful m event) : Tables.Careful m event := by
  cases event with
  | threadCreate => trivial
  | threadJoin => exact fun w found => (careful w found).1
  | joinAgain => exact fun w found => (careful w found).1
  | sbrk => trivial
  | _ => exact careful

theorem sized_step (base : Base m.k m.cpu) (good : Consistent reserved m.k) (sized : Sized m.k)
    (careful : Careful m event) (taken : step m event = some next) : Sized next.k := by
  cases did_of_step taken with
  | fork onCpu ran => exact sized_fork sized good careful (base.live onCpu) ran
  | threadCreate onCpu ran =>
    exact sized_thread_create sized good (base.live onCpu) careful ran
  | threadExit onCpu ran => exact sized_thread_exit sized good.grouped (base.live onCpu) ran
  | joinFree => exact sized
  | threadJoin onCpu found looks =>
    obtain ⟨returnable, onTop⟩ := careful _ found
    rw [join_kernel]
    exact sized_joinLoop sized good (base.live onCpu) onTop returnable.freed looks
  | joinAgain onCpu waits looks =>
    obtain ⟨returnable, onTop⟩ := careful _ waits
    rw [join_kernel]
    exact sized_joinLoop sized good (base.live onCpu) onTop returnable.freed looks
  | exit onCpu ran => exact sized.ends (ended_exit good.grouped (base.live onCpu).settled ran)
  | wait onCpu ran => exact sized_wait sized good.grouped (base.live onCpu) ran
  | exec _ ran => exact sized_exec sized good careful ran
  | sbrk onCpu ran => exact sized_growproc sized good (base.live onCpu) careful ran
  | @kill pid =>
    apply sized.moves (kill_ties m.k pid)
    · exact fun q => (kill_record m.k pid q).sz
    · exact (kill_only m.k pid).memory.pgdirs
    · exact fun q => (kill_steady q).2.live.1.mp
  | dispatch ready _ =>
    exact sized.set (.inl ready) (.inr (.inl rfl)) ⟨rfl, rfl, rfl, rfl, rfl⟩ rfl
  | yield onCpu => exact sized.set (base.live onCpu) (.inl rfl) ⟨rfl, rfl, rfl, rfl, rfl⟩ rfl
  | sleep onCpu =>
    exact sized.set (base.live onCpu) (.inr (.inr rfl)) ⟨rfl, rfl, rfl, rfl, rfl⟩ rfl
  | @wakeup chan =>
    apply sized.moves (fun q => (wakeup1_ties m.k chan q).1)
    · exact fun q => (wakeup1_record m.k chan q).sz
    · rfl
    · exact fun q => (wakeup1_ties m.k chan q).2.live.1.mp

/-- The invariant of runs. Page zero is reserved: it is no page. -/
structure Good (m : Machine) : Prop where
  base : Base m.k m.cpu
  consistent : Consistent [0] m.k
  sized : Sized m.k

theorem good_step (good : Good m) (careful : Careful m event) (taken : step m event = some next) :
    Good next :=
  ⟨base_step good.base careful.tables.gentle taken,
    Tables.consistent_step good.base good.consistent careful.tables taken,
    sized_step good.base good.consistent good.sized careful taken⟩

/-- The pages that `userinit` takes: a kernel stack, a directory, the tables of the kernel, the page
of the code and its page table. -/
def bootSupply : Nat := 1 + (1 + KERNTABLES) + 1 + 1

theorem inituvm_covers (enough : 2 ≤ mem.freelist.length)
    (ran : inituvm mem dir code = .ok (mem', dir')) :
    dir'.Covers PGSIZE := by
  unfold inituvm at ran
  split at ran
  · cases ran
  rename_i rest frame taken
  rw [bind_eq_ok] at ran
  obtain ⟨⟨mem₁, dir₁, done⟩, mapped, ran⟩ := ran
  cases ran
  cases done with
  | false =>
    have empty := ((mappages_supply mapped).1 rfl).1
    rw [(kalloc_some taken).1, length_cons, empty] at enough
    cases enough with
    | step impossible => cases impossible
  | true =>
    intro v below
    have isZero : v = 0 := by
      unfold pages PGSIZE at below
      omega
    rw [isZero, ((mappages_spec mapped).1 rfl).2.2 0, if_pos rfl]
    exact Option.some_ne_none _

theorem setupkvm_length (ran : setupkvm mem = .ok (mem', some (d, dir))) :
    mem.freelist.length = 1 + KERNTABLES + mem'.freelist.length := by
  unfold setupkvm at ran
  split at ran
  · cases ran
  · rename_i rest frame taken
    have counted := (setupkvmLoop_some ran).1
    change rest.freelist.length = _ at counted
    rw [(kalloc_some taken).1, length_cons, counted]
    omega

theorem sized_userinit (enough : bootSupply ≤ mem.freelist.length) (nodup : mem.freelist.Nodup)
    (booted : userinit (Kernel.boot mem) code = .ok k) : Sized k := by
  obtain ⟨good, init, _, _, _, _, others⟩ := consistent_userinit [] nodup booted
  obtain ⟨v, u, p, m₁, d, dir, m₂, dir₂, _, memory, allocated, setup, initialized, _, _, pgdirs, _,
    proc⟩ := userinit_eq booted
  have left : 2 ≤ m₁.freelist.length := by
    have supply : mem.freelist.length = 1 + u.mem.freelist.length := by
      obtain ⟨rest, frame, taken, memory', _⟩ := allocprocRest_eq_true (allocproc_some allocated).2
      have list := (kalloc_some taken).1
      rw [memory'.mem]
      change v.mem.freelist = _ at list
      rw [memory.mem] at list
      change mem.freelist = _ at list
      rw [list, length_cons, Nat.add_comm]
      rfl
    have tables := setupkvm_length setup
    unfold bootSupply at enough
    omega
  have first : (k.proc p).state = .runnable := by
    rw [proc, update_self]
  have only : ∀ q, (k.proc q).state ≠ .unused → q = p := by
    intro q used
    have isInit : q = init := by_contra fun other => used (others q other)
    have isInit' : p = init := by
      by_contra other
      rw [others p other] at first
      cases first
    rw [isInit, isInit']
  constructor
  · intro q live
    rw [only q live.settled.1]
    unfold Fits
    rw [proc, update_self, pgdirs]
    refine ⟨(by decide : PGSIZE < KERNBASE), fun e dir has present => ?_⟩
    cases has
    rw [update_self] at present
    cases present
    exact inituvm_covers left initialized
  · intro m i w listed live
    have head := only m (good.grouped.top m i w listed).1.1
    have worker := only w live.settled.1
    exact absurd (worker.trans head.symm) (good.grouped.ne_master listed)

section

variable (nodup : (0 :: mem.freelist).Nodup) (enough : bootSupply ≤ mem.freelist.length)
    (booted : userinit (Kernel.boot mem) code = .ok k)
include nodup enough booted

theorem good_start : Good (Machine.start k) :=
  ⟨base_start nodup.of_cons booted, (consistent_userinit [0] nodup booted).1,
    sized_userinit enough nodup.of_cons booted⟩

/-- In a run with careful calls the invariant holds in every state. -/
theorem good_run {events : List Event} {last : Machine}
    (careful : Run.Steps step Careful (Machine.start k) events)
    (run : Run.exec step (Machine.start k) events = some last) : Good last :=
  Run.exec_invariant Good (fun _ _ _ good careful taken => good_step good careful taken)
    (good_start nodup enough booted) careful run

end

instance (m : Machine) (event : Event) : Decidable (Careful m event) := by
  rcases event <;> dsimp only [Careful] <;> infer_instance

theorem smallMem_real : (0 :: smallMem.freelist).Nodup ∧ bootSupply ≤ smallMem.freelist.length := by
  constructor
  · rw [nodup_cons]
    refine ⟨?_, smallMem_nodup⟩
    unfold smallMem
    generalize 512 = pages
    simp
  · unfold smallMem
    rw [length_map, length_range]
    decide

end Xv6.Process.Sizes
