import Xv6.Pipes.Fifo

/- Who may sleep on a pipe. A process that sleeps in `piperead` waits for a byte, one that sleeps in
`pipewrite` for room; the only way out of the two calls that can leave such a process behind is the
failing return of `pipewrite`, which wakes nobody up. -/
namespace Xv6.Pipes

open Function Process Option

def Sleeps (k : Kernel) (chan : Chan) (q : Nat) : Prop :=
  (k.proc q).state = .sleeping ∧ (k.proc q).chan = some chan
deriving Decidable

/-- The number of bytes in the buffer, modulo the word size. -/
def Pipe.used (p : Pipe) : Nat := (p.nwrite - p.nread).toNat

theorem used_of_empty {p : Pipe} (empty : p.empty = true) : p.used = 0 := by
  rw [Pipe.empty, beq_iff_eq] at empty
  rw [Pipe.used, empty, UInt32.sub_self]
  rfl

theorem used_of_full {p : Pipe} (full : p.full = true) : p.used = PIPESIZE := by
  rw [Pipe.full, beq_iff_eq] at full
  rw [Pipe.used, full, UInt32.add_comm, UInt32.add_sub_cancel]
  rfl

theorem used_store (s : State) (byte : UInt8) : (s.store byte).pipe.used ≤ s.pipe.used + 1 := by
  show (s.pipe.nwrite + 1 - s.pipe.nread).toNat ≤ (s.pipe.nwrite - s.pipe.nread).toNat + 1
  rw [UInt32.toNat_sub, UInt32.toNat_sub, UInt32.toNat_add]
  have := s.pipe.nread.toNat_lt
  have := s.pipe.nwrite.toNat_lt
  have : (1 : UInt32).toNat = 1 := rfl
  omega

/-- Nobody who sleeps on the pipe could go on, except while the lock holder is about to tell
them. -/
structure Awake (s : State) : Prop where
  table : ∀ chan q, chan = nreadChan ∨ chan = nwriteChan → Sleeps s.kernel chan q → q < NPROC
  holder : ∀ q, s.lock = some q → q < NPROC
  -- a writer that started on an empty buffer has stored all that is in it
  readers : ∀ q, Sleeps s.kernel nreadChan q → s.pipe.writeopen = true ∧
    (s.pipe.empty = true ∨ ∃ h n i, s.lock = some h ∧ s.point h = .writing n i ∧ s.pipe.used ≤ i)
  writers : ∀ q, Sleeps s.kernel nwriteChan q → s.pipe.readopen = true ∧
    (s.pipe.full = true ∨ ∃ h n got, s.lock = some h ∧ s.point h = .copying n got)
  toRead : ∀ q n, s.lock = some q → s.point q = .readSleep n → s.pipe.empty = true ∧
    s.pipe.writeopen = true
  toWrite : ∀ q n i, s.lock = some q → s.point q = .writeSleep n i →
    s.pipe.full = true ∧ s.pipe.readopen = true

variable {s t : State} {p q n i : Nat} {k : Kernel} {chan : Chan} {point : Point}
    {addr : Nat → UInt8}

theorem Awake.kernel (awake : Awake s)
    (fewer : ∀ chan q, Sleeps k chan q → Sleeps s.kernel chan q) : Awake { s with kernel := k } :=
  ⟨fun chan q one sleeps => awake.table chan q one (fewer chan q sleeps), awake.holder,
    fun q sleeps => awake.readers q (fewer _ q sleeps),
    fun q sleeps => awake.writers q (fewer _ q sleeps), awake.toRead, awake.toWrite⟩

theorem sleeps_set (new : Process.Proc)
    (kept : new.state = .sleeping → (k.proc p).state = .sleeping ∧ (k.proc p).chan = new.chan)
    (chan : Chan) (q : Nat) (sleeps : Sleeps (k.setProc p new) chan q) : Sleeps k chan q := by
  rw [Sleeps, Process.setProc_proc] at sleeps
  by_cases same : q = p
  · rw [same, update_self] at sleeps
    have before := kept sleeps.1
    exact same ▸ ⟨before.1, before.2.trans sleeps.2⟩
  · rwa [update_of_ne same] at sleeps

theorem sleeps_wakeup {woken : Chan} (sleeps : Sleeps (wakeup1 k (some woken)) chan q) :
    Sleeps k chan q ∧ (chan = woken → NPROC ≤ q) := by
  unfold Sleeps wakeup1 at sleeps
  dsimp only at sleeps
  split at sleeps
  · cases sleeps.1
  · rename_i other
    refine ⟨sleeps, fun same => ?_⟩
    by_contra inside
    exact other ⟨by omega, sleeps.1, same ▸ sleeps.2⟩

theorem sleeps_kill (pid : Nat) (chan : Chan) (q : Nat) (sleeps : Sleeps (kill k pid).1 chan q) :
    Sleeps k chan q := by
  unfold kill at sleeps
  split at sleeps
  · exact sleeps
  rename_i p _
  have marked := sleeps_set (k := k) (p := p) { k.proc p with killed := true }
    (fun asleep => ⟨asleep, rfl⟩) chan q
  dsimp only at sleeps
  split at sleeps
  · exact marked (sleeps_set _ (fun asleep => by cases asleep) chan q sleeps)
  · exact marked sleeps

theorem Awake.nobody (awake : Awake s) (one : chan = nreadChan ∨ chan = nwriteChan) (q : Nat) :
    ¬ Sleeps (s.wakeup chan).kernel chan q := by
  intro sleeps
  have woken := sleeps_wakeup sleeps
  have := awake.table chan q one woken.1
  have := woken.2 rfl
  omega

theorem Awake.wakeup (awake : Awake s) (chan : Chan) : Awake (s.wakeup chan) :=
  awake.kernel (fun _ _ sleeps => (sleeps_wakeup sleeps).1)

/-- Process `q` has the lock, and goes to `point`. -/
theorem Awake.acquire (awake : Awake s) (inside : q < NPROC)
    (readers : ∀ p, Sleeps s.kernel nreadChan p →
      s.pipe.empty = true ∨ ∃ n i, point = .writing n i ∧ s.pipe.used ≤ i)
    (writers : ∀ p, Sleeps s.kernel nwriteChan p → s.pipe.full = true ∨ ∃ n got,
    point = .copying n got) (toRead : ∀ n, point = .readSleep n → s.pipe.empty = true ∧
    s.pipe.writeopen = true)
    (toWrite : ∀ n i, point = .writeSleep n i → s.pipe.full = true ∧ s.pipe.readopen = true) :
    Awake (s.acquire q point) := by
  have here : (s.acquire q point).point q = point := update_self _ _ _
  refine ⟨awake.table, ?_, ?_, ?_, ?_, ?_⟩
  · intro p locked
    exact Option.some.inj locked ▸ inside
  · intro p sleeps
    refine ⟨(awake.readers p sleeps).1, (readers p sleeps).imp_right ?_⟩
    intro ⟨n, i, there, used⟩
    exact ⟨q, n, i, rfl, here.trans there, used⟩
  · intro p sleeps
    refine ⟨(awake.writers p sleeps).1, (writers p sleeps).imp_right ?_⟩
    intro ⟨n, got, there⟩
    exact ⟨q, n, got, rfl, here.trans there⟩
  · intro p n locked there
    cases Option.some.inj locked
    exact toRead n (here.symm.trans there)
  · intro p n i locked there
    cases Option.some.inj locked
    exact toWrite n i (here.symm.trans there)

theorem setPoint_eq (held : s.lock = some q) : s.setPoint q point = s.acquire q point := by
  rw [State.acquire, ← held]
  rfl

section

variable (awake : Awake s)
include awake

theorem Awake.release (readers : ∀ p, Sleeps s.kernel nreadChan p → s.pipe.empty = true)
    (writers : ∀ p, Sleeps s.kernel nwriteChan p → s.pipe.full = true) :
    Awake (s.release q point) :=
  ⟨awake.table, fun _ locked => (nomatch locked),
    fun p sleeps => ⟨(awake.readers p sleeps).1, .inl (readers p sleeps)⟩,
    fun p sleeps => ⟨(awake.writers p sleeps).1, .inl (writers p sleeps)⟩,
    fun _ _ locked => (nomatch locked), fun _ _ _ locked => (nomatch locked)⟩

/-- While the lock is free, a reader sleeps only on an empty pipe. -/
theorem Awake.reader_free (free : s.lock = none) (sleeps : Sleeps s.kernel nreadChan p) :
    s.pipe.empty = true := by
  rcases (awake.readers p sleeps).2 with empty | ⟨h, n, i, locked, _⟩
  · exact empty
  · cases free.symm.trans locked

theorem Awake.writer_free (free : s.lock = none) (sleeps : Sleeps s.kernel nwriteChan p) :
    s.pipe.full = true := by
  rcases (awake.writers p sleeps).2 with full | ⟨h, n, got, locked, _⟩
  · exact full
  · cases free.symm.trans locked

/-- A reader may sleep on a pipe with bytes in it only while a writer is storing them. -/
theorem Awake.reader_held (held : s.lock = some q) (sleeps : Sleeps s.kernel nreadChan p) :
    s.pipe.empty = true ∨ ∃ n i, s.point q = .writing n i ∧ s.pipe.used ≤ i := by
  refine (awake.readers p sleeps).2.imp_right ?_
  intro ⟨h, n, i, locked, there, used⟩
  cases Option.some.inj (held.symm.trans locked)
  exact ⟨n, i, there, used⟩

theorem Awake.writer_held (held : s.lock = some q) (sleeps : Sleeps s.kernel nwriteChan p) :
    s.pipe.full = true ∨ ∃ n got, s.point q = .copying n got := by
  refine (awake.writers p sleeps).2.imp_right ?_
  intro ⟨h, n, got, locked, there⟩
  cases Option.some.inj (held.symm.trans locked)
  exact ⟨n, got, there⟩

theorem Awake.empty_held (held : s.lock = some q) (other : ∀ n i, s.point q ≠ .writing n i)
    (sleeps : Sleeps s.kernel nreadChan p) : s.pipe.empty = true :=
  (awake.reader_held held sleeps).resolve_right fun ⟨n, i, there, _⟩ => other n i there

theorem Awake.full_held (held : s.lock = some q) (other : ∀ n got, s.point q ≠ .copying n got)
    (sleeps : Sleeps s.kernel nwriteChan p) : s.pipe.full = true :=
  (awake.writer_held held sleeps).resolve_right fun ⟨n, got, there⟩ => other n got there

end

theorem sleeps_sleep {other : Chan} {new : Point}
    (sleeps : Sleeps (s.sleep q other new).kernel chan p) :
    Sleeps s.kernel chan p ∨ p = q ∧ chan = other := by
  by_cases same : p = q
  · rw [same] at sleeps
    have named : (update s.kernel.proc q _ q).chan = some chan := sleeps.2
    rw [update_self] at named
    exact .inr ⟨same, (Option.some.inj named).symm⟩
  · have old : (update s.kernel.proc q _ p).state = .sleeping ∧
      (update s.kernel.proc q _ p).chan = some chan := sleeps
    rw [update_of_ne same] at old
    exact .inl old

theorem nread_ne_nwrite : nreadChan ≠ nwriteChan := by decide

section

variable (awake : Awake s) (held : s.lock = some q)
include awake held

/-- The lock holder falls asleep; nobody could go on, itself included. -/
theorem Awake.sleep (reads : chan = nreadChan → s.pipe.empty = true ∧ s.pipe.writeopen = true)
    (writes : chan = nwriteChan → s.pipe.full = true ∧ s.pipe.readopen = true)
    (readers : ∀ p, Sleeps s.kernel nreadChan p → s.pipe.empty = true)
    (writers : ∀ p, Sleeps s.kernel nwriteChan p → s.pipe.full = true) :
    Awake (s.sleep q chan point) := by
  refine ⟨?_, fun _ locked => (nomatch locked), ?_, ?_, fun _ _ locked => (nomatch locked),
    fun _ _ _ locked => (nomatch locked)⟩
  · intro other p one sleeps
    rcases sleeps_sleep sleeps with old | ⟨same, _⟩
    · exact awake.table other p one old
    · exact same ▸ awake.holder q held
  · intro p sleeps
    rcases sleeps_sleep sleeps with old | ⟨_, same⟩
    · exact ⟨(awake.readers p old).1, .inl (readers p old)⟩
    · exact ⟨(reads same.symm).2, .inl (reads same.symm).1⟩
  · intro p sleeps
    rcases sleeps_sleep sleeps with old | ⟨_, same⟩
    · exact ⟨(awake.writers p old).1, .inl (writers p old)⟩
    · exact ⟨(writes same.symm).2, .inl (writes same.symm).1⟩

/-- The lock holder stores a byte; no writer sleeps, for the pipe is not full. -/
theorem Awake.store (byte : UInt8) (before : s.point q = .writing n i)
    (room : s.pipe.full = false) :
    Awake ((s.store byte).setPoint q (.writing n (i + 1))) := by
  have here : ((s.store byte).setPoint q (.writing n (i + 1))).point q = .writing n (i + 1) :=
    update_self _ _ _
  refine ⟨awake.table, awake.holder, ?_, ?_, ?_, ?_⟩
  · intro p sleeps
    refine ⟨(awake.readers p sleeps).1, .inr ⟨q, n, i + 1, held, here, ?_⟩⟩
    have grown := used_store s byte
    have old : s.pipe.used ≤ i := by
      rcases awake.reader_held held sleeps with empty | ⟨m, j, there, used⟩
      · rw [used_of_empty empty]
        exact Nat.zero_le i
      · cases before.symm.trans there
        exact used
    exact grown.trans (Nat.succ_le_succ old)
  · intro p sleeps
    have full := awake.full_held held (by simp [before]) sleeps
    rw [room] at full
    cases full
  · intro p m locked there
    cases Option.some.inj (held.symm.trans locked)
    cases here.symm.trans there
  · intro p m j locked there
    cases Option.some.inj (held.symm.trans locked)
    cases here.symm.trans there

/-- The lock holder takes a byte; no reader sleeps, for the pipe is not empty. -/
theorem Awake.copy {got : List UInt8} (before : s.point q = .copying n got)
    (more : s.pipe.empty = false) :
    Awake (s.copy q n got) := by
  have here : (s.copy q n got).point q =
      .copying n (got ++ [s.pipe.data (s.pipe.nread.toNat % PIPESIZE)]) := update_self _ _ _
  refine ⟨awake.table, awake.holder, ?_, ?_, ?_, ?_⟩
  · intro p sleeps
    have empty := awake.empty_held held (by simp [before]) sleeps
    rw [more] at empty
    cases empty
  · intro p sleeps
    exact ⟨(awake.writers p sleeps).1, .inr ⟨q, n, _, held, here⟩⟩
  · intro p m locked there
    cases Option.some.inj (held.symm.trans locked)
    cases here.symm.trans there
  · intro p m j locked there
    cases Option.some.inj (held.symm.trans locked)
    cases here.symm.trans there

end

/-- A write that fails on a full pipe, for its process was killed or the read end is closed, is not
for more than `PIPESIZE` bytes. A longer one may have filled the pipe by itself, and it wakes nobody
up. -/
def FailsShort (p : Pipe) (killed : Bool) : Point → Prop
  | .writing n i =>
    i < n → p.full = true → p.readopen = false ∨ killed = true → n ≤ PIPESIZE
  | _ => True

def Tells (s : State) : Event → Prop
  | .turn q _ => FailsShort s.pipe (s.kernel.proc q).killed (s.point q)
  | _ => True

instance (p : Pipe) (killed : Bool) (point : Point) : Decidable (FailsShort p killed point) := by
  rcases point <;> dsimp only [FailsShort] <;> infer_instance

instance (s : State) (event : Event) : Decidable (Tells s event) := by
  rcases event <;> dsimp only [Tells] <;> infer_instance

section

variable (awake : Awake s) (held : s.lock = some q)
include awake held

theorem Awake.writing (before : s.point q = .writing n i) (tells : Tells s (.turn q addr))
    (taken : turn s q addr = some t) : Awake t := by
  have waiting : ∀ p, Sleeps s.kernel nwriteChan p → s.pipe.full = true :=
    fun p => awake.full_held held (by simp [before])
  have told := awake.wakeup nreadChan
  have nobody := awake.nobody (.inl (Eq.refl nreadChan))
  have waiting' : ∀ p, Sleeps (s.wakeup nreadChan).kernel nwriteChan p → s.pipe.full = true :=
    fun p sleeps => waiting p (sleeps_wakeup sleeps).1
  rw [Tells, before] at tells
  rw [turn, before] at taken
  dsimp only at taken
  split at taken
  · rename_i more
    split at taken
    · rename_i full
      split at taken
      · rename_i fails
        cases taken
        apply awake.release _ waiting
        -- a sleeping reader means that the writer has filled the pipe by itself
        intro p sleeps
        rcases awake.reader_held held sleeps with empty | ⟨m, j, there, used⟩
        · exact empty
        · cases before.symm.trans there
          have short :=
            tells more full (by simpa only [Bool.or_eq_true, Bool.not_eq_true'] using fails)
          rw [used_of_full full] at used
          omega
      · rename_i goes
        cases taken
        rw [setPoint_eq (s := s.wakeup nreadChan) held]
        apply told.acquire (awake.holder q held)
        · exact fun p sleeps => absurd sleeps (nobody p)
        · exact fun p sleeps => .inl (waiting' p sleeps)
        · intro m other
          cases other
        · intro m j _
          refine ⟨full, ?_⟩
          simp only [Bool.or_eq_true, Bool.not_eq_true', not_or, Bool.not_eq_false] at goes
          exact goes.1
    · rename_i room
      cases taken
      exact awake.store held (addr i) before (Bool.not_eq_true _ ▸ room)
  · cases taken
    exact told.release (fun p sleeps => absurd sleeps (nobody p)) waiting'

theorem Awake.reading (before : s.point q = .reading n) (taken : turn s q addr = some t) :
    Awake t := by
  have hungry : ∀ p, Sleeps s.kernel nreadChan p → s.pipe.empty = true :=
    fun p => awake.empty_held held (by simp [before])
  have waiting : ∀ p, Sleeps s.kernel nwriteChan p → s.pipe.full = true :=
    fun p => awake.full_held held (by simp [before])
  have goesOn : ∀ point, _ → _ → Awake (s.acquire q point) := fun _ => awake.acquire
    (awake.holder q held) (fun p sleeps => .inl (hungry p sleeps))
    fun p sleeps => .inl (waiting p sleeps)
  rw [turn, before] at taken
  dsimp only at taken
  split at taken
  · rename_i blocked
    rw [Bool.and_eq_true] at blocked
    split at taken
    · cases taken
      exact awake.release hungry waiting
    cases taken
    rw [setPoint_eq held]
    exact goesOn _ (fun m _ => blocked) fun m j other => by cases other
  · cases taken
    rw [setPoint_eq held]
    exact goesOn _ (fun m other => by cases other) fun m j other => by cases other

theorem Awake.copying {got : List UInt8} (before : s.point q = .copying n got)
    (taken : turn s q addr = some t) : Awake t := by
  rw [turn, before] at taken
  dsimp only at taken
  split at taken
  · rename_i more
    cases taken
    rw [Bool.and_eq_true, Bool.not_eq_true'] at more
    exact awake.copy held before more.2
  cases taken
  have told := awake.wakeup nwriteChan
  have released : Awake ((s.wakeup nwriteChan).release q .outside) := by
    apply told.release
    · exact fun p sleeps => awake.empty_held held (by simp [before]) (sleeps_wakeup sleeps).1
    · exact fun p sleeps => absurd sleeps (awake.nobody (.inr rfl) p)
  exact ⟨released.table, released.holder, released.readers, released.writers, released.toRead,
    released.toWrite⟩

theorem Awake.turn (tells : Tells s (.turn q addr)) (taken : turn s q addr = some t) : Awake t := by
  cases before : s.point q with
  | writing n i => exact awake.writing held before tells taken
  | reading n => exact awake.reading held before taken
  | copying n got => exact awake.copying held before taken
  | writeSleep n i =>
    have ready := awake.toWrite q n i held before
    rw [Pipes.turn, before] at taken
    cases taken
    apply awake.sleep held
    · exact fun other => absurd other nread_ne_nwrite.symm
    · exact fun _ => ready
    · exact fun p => awake.empty_held held (by simp [before])
    · exact fun _ _ => ready.1
  | readSleep n =>
    have ready := awake.toRead q n held before
    rw [Pipes.turn, before] at taken
    cases taken
    apply awake.sleep held
    · exact fun _ => ready
    · exact fun other => absurd other nread_ne_nwrite
    · exact fun _ _ => ready.1
    · exact fun p => awake.full_held held (by simp [before])
  | outside | writeWoken n i | readWoken n =>
    rw [Pipes.turn, before] at taken
    cases taken

end

theorem mayLock_running (may : s.mayLock q = true) : q < NPROC ∧
    (s.kernel.proc q).state = .running := by
  simp only [State.mayLock, Bool.and_eq_true, decide_eq_true_eq, beq_iff_eq] at may
  exact may.1.1

theorem Awake.enter (awake : Awake s) (inside : q < NPROC) (free : s.lock = none)
    (first : (∃ n i, point = .writing n i) ∨ ∃ n, point = .reading n) :
    Awake (s.acquire q point) := by
  apply awake.acquire inside
  · exact fun p sleeps => .inl (awake.reader_free free sleeps)
  · exact fun p sleeps => .inl (awake.writer_free free sleeps)
  · rintro n rfl
    simp at first
  · rintro n i rfl
    simp at first

theorem Awake.pipeclose (awake : Awake s) (free : s.lock = none) (writable : Bool) :
    Awake (pipeclose s writable) := by
  cases writable with
  | true =>
    have told := awake.wakeup nreadChan
    exact ⟨told.table, told.holder, fun p sleeps => absurd sleeps (awake.nobody (.inl rfl) p),
      told.writers, fun _ _ locked => (nomatch free.symm.trans locked), told.toWrite⟩
  | false =>
    have told := awake.wakeup nwriteChan
    exact ⟨told.table, told.holder, told.readers,
      fun p sleeps => absurd sleeps (awake.nobody (.inr rfl) p), told.toRead,
      fun _ _ _ locked => (nomatch free.symm.trans locked)⟩

theorem awake_step {event : Event} (awake : Awake s) (tells : Tells s event)
    (taken : step s event = some t) : Awake t := by
  cases event with
  | pipewrite q n =>
    obtain ⟨may, same⟩ := ite_none_right_eq_some.mp taken
    cases same
    rw [Bool.and_eq_true] at may
    exact awake.enter (mayLock_running may.1).1 (mayLock_free may.1) (.inl ⟨n, 0, rfl⟩)
  | piperead q n =>
    obtain ⟨may, same⟩ := ite_none_right_eq_some.mp taken
    cases same
    rw [Bool.and_eq_true] at may
    exact awake.enter (mayLock_running may.1).1 (mayLock_free may.1) (.inr ⟨n, rfl⟩)
  | pipeclose q writable =>
    obtain ⟨may, same⟩ := ite_none_right_eq_some.mp taken
    cases same
    rw [Bool.and_eq_true] at may
    exact awake.pipeclose (mayLock_free may.1) writable
  | turn q addr =>
    obtain ⟨held, taken⟩ := ite_none_right_eq_some.mp taken
    exact awake.turn held tells taken
  | resume q =>
    obtain ⟨may, taken⟩ := ite_none_right_eq_some.mp taken
    have free := mayLock_free may
    have ⟨inside, running⟩ := mayLock_running may
    have fewer := sleeps_set (k := s.kernel) (p := q) { s.kernel.proc q with chan := none }
      (fun asleep => by cases running.symm.trans asleep)
    have quiet := awake.kernel fewer
    split at taken
    · rename_i n i _
      cases taken
      exact quiet.enter inside free (.inl ⟨n, i, rfl⟩)
    · rename_i n _
      cases taken
      exact quiet.enter inside free (.inr ⟨n, rfl⟩)
    · cases taken
  | kill pid =>
    cases taken
    exact awake.kernel (sleeps_kill pid)
  | dispatch q =>
    obtain ⟨_, same⟩ := ite_none_right_eq_some.mp taken
    cases same
    exact awake.kernel (sleeps_set _ fun asleep => by cases asleep)
  | yield q =>
    obtain ⟨_, same⟩ := ite_none_right_eq_some.mp taken
    cases same
    exact awake.kernel (sleeps_set _ fun asleep => by cases asleep)

/-- Nobody sleeps on the address of the new pipe. -/
theorem awake_pipealloc (data : Nat → UInt8)
    (fresh : ∀ q, ¬ Sleeps k nreadChan q ∧ ¬ Sleeps k nwriteChan q) : Awake (pipealloc k data) := by
  refine ⟨?_, fun _ locked => (nomatch locked), fun q sleeps => absurd sleeps (fresh q).1,
    fun q sleeps => absurd sleeps (fresh q).2, fun _ _ locked => (nomatch locked),
    fun _ _ _ locked => (nomatch locked)⟩
  rintro chan q (rfl | rfl) sleeps
  · exact absurd sleeps (fresh q).1
  · exact absurd sleeps (fresh q).2

/-- Let no write of more than `PIPESIZE` bytes fail on a full pipe. Then, whenever `p->lock` is
free, a process that sleeps on `&p->nread` sleeps at an empty pipe whose write end is open, and one
that sleeps on `&p->nwrite` at a full pipe whose read end is open. -/
theorem pipe_no_lost_wakeup (k : Kernel) (data : Nat → UInt8) (events : List Event) (s : State)
    (fresh : ∀ q, ¬ Sleeps k nreadChan q ∧ ¬ Sleeps k nwriteChan q)
    (tells : Run.Steps step Tells (pipealloc k data) events)
    (run : Run.exec step (pipealloc k data) events = some s) (free : s.lock = none) :
    (∀ q, Sleeps s.kernel nreadChan q → s.pipe.empty = true ∧ s.pipe.writeopen = true) ∧
    ∀ q, Sleeps s.kernel nwriteChan q → s.pipe.full = true ∧ s.pipe.readopen = true := by
  have awake : Awake s := Run.exec_invariant Awake
    (fun _ _ _ before tells taken => awake_step before tells taken)
    (awake_pipealloc data fresh) tells run
  constructor
  · exact fun q sleeps => ⟨awake.reader_free free sleeps, (awake.readers q sleeps).1⟩
  · exact fun q sleeps => ⟨awake.writer_free free sleeps, (awake.writers q sleeps).1⟩

theorem pair_awake (chan : Chan) (q : Nat) : ¬ Sleeps pair chan q := by
  intro sleeps
  have first := sleeps_set _ (fun asleep => by cases asleep) chan q sleeps
  have second := sleeps_set _ (fun asleep => by cases asleep) chan q first
  cases second.1

/-- A reader falls asleep on the new pipe. -/
def readerSleeps : List Event := .piperead 0 9 :: List.replicate 2 (.turn 0 fun _ => 0)

/-- A writer of 600 bytes wakes it up when the pipe is full, and falls asleep itself. -/
def writerSleeps : List Event :=
  readerSleeps ++ .pipewrite 1 600 :: List.replicate 514 (.turn 1 fun i => UInt8.ofNat i)

theorem pipe_no_lost_wakeup_pair :
    ∃ s, Run.exec step (pipealloc pair fun _ => 0) writerSleeps = some s ∧
      (s.kernel.proc 0).state = .runnable ∧ Sleeps s.kernel nwriteChan 1 ∧
      s.pipe.full = true ∧ s.pipe.readopen = true := by
  have run : ((Run.exec step (pipealloc pair fun _ => 0) writerSleeps).map fun s =>
      (decide (Run.Steps step Tells (pipealloc pair fun _ => 0) writerSleeps), s.lock.isNone,
        (s.kernel.proc 0).state, decide (Sleeps s.kernel nwriteChan 1))) =
      some (true, true, .runnable, true) := by decide +kernel
  obtain ⟨s, run, facts⟩ := map_eq_some_iff.mp run
  simp only [Prod.mk.injEq, decide_eq_true_eq, isNone_iff_eq_none] at facts
  obtain ⟨tells, free, woken, sleeps⟩ := facts
  exact ⟨s, run, woken, sleeps, (pipe_no_lost_wakeup pair _ _ s
    (fun q => ⟨pair_awake _ q, pair_awake _ q⟩) tells run free).2 1 sleeps⟩

/-- A reader sleeps, a writer of 513 bytes is killed, fills the pipe and returns -1: the lock is
free, the pipe is full and the reader still sleeps on `&p->nread`. -/
theorem reader_left_asleep :
    ((Run.exec step (pipealloc pair fun _ => 0)
      (readerSleeps ++ .kill 2 :: .pipewrite 1 513 :: List.replicate 513 (.turn 1 fun _ => 0))).map
      fun s => (s.lock, decide (Sleeps s.kernel nreadChan 0), s.pipe.empty, s.pipe.full,
        s.pipe.writeopen)) = some (none, true, false, true, true) := by
  decide +kernel

end Xv6.Pipes
