import Mathlib.Data.List.Infix
import Xv6.Pipes.Model

/- A pipe is a FIFO channel: what has been read is a prefix of what has been written. -/
namespace Xv6.Pipes

open Function Process Option List

variable {point : Point} {got : List UInt8}

def Point.inHand : Point → List UInt8
  | .copying _ got => got
  | _ => []

/-- The bytes that the process with the lock has copied and not yet returned. -/
def State.inHand (s : State) : List UInt8 :=
  match s.lock with
  | some q => (s.point q).inHand
  | none => []

/-- All bytes that have left the buffer. -/
def State.taken (s : State) : List UInt8 := s.returned ++ s.inHand

structure Channel (s : State) : Prop where
  ring : Ring.Holds PIPESIZE s.pipe.data s.taken.length s.stored
  order : s.taken <+: s.stored
  nread : s.pipe.nread = UInt32.ofNat s.taken.length
  nwrite : s.pipe.nwrite = UInt32.ofNat s.stored.length
  -- the second loop of `piperead` starts only when there is something to copy or to report
  ready : ∀ q n, s.lock = some q → s.point q = .copying n [] → s.pipe.empty = false ∨
    s.pipe.writeopen = false

variable {s t : State} {q n i : Nat} {addr : Nat → UInt8}

theorem taken_free (free : s.lock = none) : s.taken = s.returned := by
  simp only [State.taken, State.inHand, free, append_nil]

theorem taken_held (held : s.lock = some q) : s.taken = s.returned ++ (s.point q).inHand := by
  simp only [State.taken, State.inHand, held]

section

variable (channel : Channel s)
include channel

theorem Channel.empty_iff : s.pipe.empty = true ↔ s.taken.length = s.stored.length := by
  have behind := channel.ring.behind
  have fits := channel.ring.fits
  unfold PIPESIZE at fits
  rw [Pipe.empty, beq_iff_eq, channel.nread, channel.nwrite, Ring.counter_eq behind (by omega)]

theorem Channel.full_iff : s.pipe.full = true ↔ s.stored.length = s.taken.length + PIPESIZE := by
  have behind := channel.ring.behind
  have fits := channel.ring.fits
  rw [Pipe.full, beq_iff_eq, channel.nread, channel.nwrite,
    Ring.counter_full behind fits (by unfold PIPESIZE; omega)]

theorem Channel.keep (data : t.pipe.data = s.pipe.data) (nread : t.pipe.nread = s.pipe.nread)
    (nwrite : t.pipe.nwrite = s.pipe.nwrite) (stored : t.stored = s.stored)
    (taken : t.taken = s.taken) (ready : ∀ q n, t.lock = some q → t.point q = .copying n [] →
      t.pipe.empty = false ∨ t.pipe.writeopen = false) : Channel t := by
  refine ⟨?_, ?_, ?_, ?_, ready⟩
  · rw [data, taken, stored]
    exact channel.ring
  · rw [taken, stored]
    exact channel.order
  · rw [nread, taken]
    exact channel.nread
  · rw [nwrite, stored]
    exact channel.nwrite

theorem Channel.kernel (k : Kernel) : Channel { s with kernel := k } :=
  channel.keep rfl rfl rfl rfl rfl channel.ready

theorem Channel.wakeup (chan : Chan) : Channel (s.wakeup chan) :=
  channel.kernel _

/-- The lock holder, with nothing in hand, goes to a place where it has nothing in hand. -/
theorem Channel.setPoint (held : s.lock = some q) (before : (s.point q).inHand = [])
    (after : point.inHand = [])
    (ready : ∀ n, point = .copying n [] → s.pipe.empty = false ∨ s.pipe.writeopen = false) :
    Channel (s.setPoint q point) := by
  refine channel.keep rfl rfl rfl rfl ?_ ?_
  · have held' : (s.setPoint q point).lock = some q := held
    rw [taken_held held, taken_held held', before]
    simp only [State.setPoint, update_self, after]
  · intro other n locked copying
    have same : other = q := Option.some.inj (locked.symm.trans held)
    subst same
    have here : point = .copying n [] := by simpa only [State.setPoint, update_self] using copying
    exact ready n here

theorem Channel.release (held : s.lock = some q) (before : (s.point q).inHand = []) :
    Channel (s.release q point) := by
  refine channel.keep rfl rfl rfl rfl ?_ ?_
  · have free : (s.release q point).lock = none := rfl
    rw [taken_held held, taken_free free, before, append_nil]
    rfl
  · intro other n locked
    cases locked

theorem Channel.acquire (free : s.lock = none) (after : point.inHand = [])
    (other : ∀ n, point ≠ .copying n []) : Channel (s.acquire q point) := by
  refine channel.keep rfl rfl rfl rfl ?_ ?_
  · have held : (s.acquire q point).lock = some q := rfl
    rw [taken_free free, taken_held held]
    simp only [State.acquire, State.setPoint, update_self, after, append_nil]
  intro p n locked copying
  have same : q = p := Option.some.inj locked
  subst same
  have here : point = .copying n [] := by
    simpa only [State.acquire, State.setPoint, update_self] using copying
  exact absurd here (other n)

theorem Channel.sleep {chan : Chan} (held : s.lock = some q) (before : (s.point q).inHand = []) :
    Channel (s.sleep q chan point) :=
  (channel.release held before).kernel _

theorem Channel.store (held : s.lock = some q) (byte : UInt8) (before : s.point q = .writing n i)
    (room : s.pipe.full = false) : Channel (s.store byte) := by
  have same : (s.store byte).taken = s.taken := rfl
  have fits := channel.ring.fits
  have short : s.stored.length < s.taken.length + PIPESIZE := by
    have notFull := mt channel.full_iff.mpr (by rw [room]; exact Bool.false_ne_true)
    omega
  have place : s.pipe.nwrite.toNat % PIPESIZE = s.stored.length % PIPESIZE := by
    rw [channel.nwrite, Ring.counter_mod (by decide)]
  refine ⟨?_, ?_, ?_, ?_, ?_⟩
  · rw [same]
    show Ring.Holds PIPESIZE (update s.pipe.data (s.pipe.nwrite.toNat % PIPESIZE) byte) _
      (s.stored ++ [byte])
    rw [place]
    exact channel.ring.store byte short
  · rw [same]
    exact channel.order.trans (prefix_append _ _)
  · rw [same]
    exact channel.nread
  · show s.pipe.nwrite + 1 = UInt32.ofNat (s.stored ++ [byte]).length
    rw [channel.nwrite, length_append, length_singleton, UInt32.ofNat_add]
    rfl
  · intro other m locked copying
    have here : other = q := Option.some.inj (locked.symm.trans held)
    subst here
    have contradiction := before.symm.trans copying
    cases contradiction

end

theorem taken_copy (held : s.lock = some q) (before : s.point q = .copying n got) :
    (s.copy q n got).taken = s.taken ++ [s.pipe.data (s.pipe.nread.toNat % PIPESIZE)] := by
  have held' : (s.copy q n got).lock = some q := held
  rw [taken_held held', taken_held held, before, Point.inHand, append_assoc]
  simp only [State.copy, State.setPoint, update_self, Point.inHand]

section

variable (channel : Channel s) (held : s.lock = some q)
include channel held

theorem Channel.copy (before : s.point q = .copying n got) (more : s.pipe.empty = false) :
    Channel (s.copy q n got) := by
  have behind := channel.ring.behind
  have left : s.taken.length < s.stored.length := by
    have notEmpty := mt channel.empty_iff.mpr (by rw [more]; exact Bool.false_ne_true)
    omega
  obtain ⟨byte, rest⟩ := channel.ring.take left
  rw [← Ring.counter_mod (by decide), ← channel.nread] at byte
  have grown := taken_copy held before
  refine ⟨?_, ?_, ?_, channel.nwrite, ?_⟩
  · rw [grown, length_append, length_singleton]
    exact rest
  · rw [grown]
    obtain ⟨_, value⟩ := List.getElem?_eq_some_iff.mp byte
    rw [← value]
    exact concat_get_prefix channel.order left
  · rw [grown, length_append, length_singleton, UInt32.ofNat_add, ← channel.nread]
    rfl
  · intro other m locked copying
    have here : other = q := Option.some.inj (locked.symm.trans held)
    subst here
    simp [State.copy, State.setPoint] at copying

/-- The end of a read: what was in hand has been returned. -/
theorem Channel.finish (before : s.point q = .copying n got) : Channel (s.finish q got) := by
  refine channel.keep rfl rfl rfl rfl ?_ ?_
  · rw [taken_held held, before]
    exact taken_free rfl
  · intro other m locked
    cases locked

theorem Channel.turn (taken : turn s q addr = some t) : Channel t := by
  unfold Pipes.turn at taken
  split at taken
  next n i point =>
      have before : (s.point q).inHand = [] := by rw [point]; rfl
      split at taken
      · split at taken
        · split at taken
          · cases taken
            exact channel.release held before
          · cases taken
            exact (channel.wakeup nreadChan).setPoint held before rfl (fun _ other => nomatch other)
        · rename_i room
          cases taken
          have stored := channel.store held (addr i) point (Bool.not_eq_true _ ▸ room)
          exact stored.setPoint held before rfl (fun _ other => nomatch other)
      · cases taken
        exact (channel.wakeup nreadChan).release held before
  next n i point =>
      cases taken
      exact channel.sleep held (by rw [point]; rfl)
  next n point =>
      have before : (s.point q).inHand = [] := by rw [point]; rfl
      split at taken
      · split at taken
        · cases taken
          exact channel.release held before
        · cases taken
          exact channel.setPoint held before rfl (fun _ other => nomatch other)
      · rename_i ready
        cases taken
        apply channel.setPoint held before rfl
        intro _ _
        simpa only [Bool.and_eq_true, not_and_or, Bool.not_eq_true] using ready
  next n point =>
      cases taken
      exact channel.sleep held (by rw [point]; rfl)
  next n got point =>
      split at taken
      · rename_i more
        cases taken
        rw [Bool.and_eq_true, Bool.not_eq_true'] at more
        exact channel.copy held point more.2
      · cases taken
        exact channel.finish held point
  all_goals cases taken

end

theorem Channel.pipeclose (channel : Channel s) (free : s.lock = none) (writable : Bool) :
    Channel (pipeclose s writable) := by
  cases writable with
  | true =>
    apply Channel.wakeup
    refine channel.keep rfl rfl rfl rfl rfl ?_
    exact fun _ _ _ _ => .inr rfl
  | false =>
    apply Channel.wakeup
    refine channel.keep rfl rfl rfl rfl rfl ?_
    exact fun other _ locked => nomatch free.symm.trans locked

theorem mayLock_free (may : s.mayLock q = true) : s.lock = none := by
  simp only [State.mayLock, Bool.and_eq_true, isNone_iff_eq_none] at may
  exact may.1.2

theorem channel_step {event : Event} (channel : Channel s) (taken : step s event = some t) :
    Channel t := by
  cases event with
  | pipewrite q n =>
    obtain ⟨may, same⟩ := ite_none_right_eq_some.mp taken
    cases same
    rw [Bool.and_eq_true] at may
    exact channel.acquire (mayLock_free may.1) rfl (fun _ same => nomatch same)
  | piperead q n =>
    obtain ⟨may, same⟩ := ite_none_right_eq_some.mp taken
    cases same
    rw [Bool.and_eq_true] at may
    exact channel.acquire (mayLock_free may.1) rfl (fun _ same => nomatch same)
  | pipeclose q writable =>
    obtain ⟨may, same⟩ := ite_none_right_eq_some.mp taken
    cases same
    rw [Bool.and_eq_true] at may
    exact channel.pipeclose (mayLock_free may.1) writable
  | turn q addr =>
    obtain ⟨held, taken⟩ := ite_none_right_eq_some.mp taken
    exact channel.turn held taken
  | resume q =>
    obtain ⟨may, taken⟩ := ite_none_right_eq_some.mp taken
    have free := mayLock_free may
    have awake := channel.kernel (s.kernel.setProc q { s.kernel.proc q with chan := none })
    split at taken
    · cases taken
      exact awake.acquire free rfl (fun _ same => nomatch same)
    · cases taken
      exact awake.acquire free rfl (fun _ same => nomatch same)
    · cases taken
  | kill pid =>
    cases taken
    exact channel.kernel _
  | dispatch q =>
    obtain ⟨_, same⟩ := ite_none_right_eq_some.mp taken
    cases same
    exact channel.kernel _
  | yield q =>
    obtain ⟨_, same⟩ := ite_none_right_eq_some.mp taken
    cases same
    exact channel.kernel _

theorem channel_pipealloc (k : Kernel) (data : Nat → UInt8) : Channel (pipealloc k data) :=
  ⟨Ring.holds_nil _ _, nil_prefix, rfl, rfl, fun _ _ locked => nomatch locked⟩

theorem step_turn (held : s.lock = some q) : step s (.turn q addr) = turn s q addr :=
  if_pos held

/-- The rest of a read that has `got` in hand, undisturbed: it takes what is left, up to `n`
bytes. -/
theorem copy_runs (addr : Nat → UInt8) {m : Nat} (channel : Channel s) (held : s.lock = some q)
    (before : s.point q = .copying n got)
    (turns : min (n - got.length) (s.stored.length - s.taken.length) = m) :
    ∃ t, Run.exec step s (List.replicate (m + 1) (.turn q addr)) = some t ∧ t.lock = none ∧
      t.point q = .outside ∧ t.stored = s.stored ∧
      t.returned = s.taken ++ (s.stored.drop s.taken.length).take (n - got.length) := by
  have behind := channel.ring.behind
  induction m generalizing s got with
  | zero =>
    have stops : (got.length < n && !s.pipe.empty) = false := by
      rw [Bool.and_eq_false_iff, decide_eq_false_iff_not, Bool.not_eq_false', channel.empty_iff]
      omega
    have nothing : (s.stored.drop s.taken.length).take (n - got.length) = [] := by
      rw [take_eq_nil_iff, drop_eq_nil_iff]
      omega
    refine ⟨s.finish q got, ?_, rfl, update_self _ _ _, rfl, ?_⟩
    · rw [replicate_one, Run.exec_cons, step_turn held, turn, before]
      simp only [stops]
      rfl
    · rw [nothing, append_nil, taken_held held, before]
      rfl
  | succ m ih =>
    have left : s.taken.length < s.stored.length := by omega
    have more : s.pipe.empty = false := by
      rw [← Bool.not_eq_true, channel.empty_iff]
      omega
    have goes : step s (.turn q addr) = some (s.copy q n got) := by
      rw [step_turn held, turn, before]
      simp only [more, Bool.not_false, Bool.and_true, decide_eq_true_eq]
      exact if_pos (by omega)
    have next := channel.copy held before more
    have grown := taken_copy held before
    have length : (s.copy q n got).taken.length = s.taken.length + 1 := by
      rw [grown, length_append, length_singleton]
    have stored : (s.copy q n got).stored = s.stored := rfl
    obtain ⟨t, run, free, outside, same, returned⟩ :=
      ih next held (update_self _ _ _) (by
        rw [length, stored, length_append, length_singleton]; omega) next.ring.behind
    refine ⟨t, ?_, free, outside, same, ?_⟩
    · rw [replicate_succ, Run.exec_cons_of_step step goes]
      exact run
    obtain ⟨byte, _⟩ := channel.ring.take left
    rw [← Ring.counter_mod (by decide), ← channel.nread] at byte
    obtain ⟨_, value⟩ := List.getElem?_eq_some_iff.mp byte
    have rest : n - got.length = (n - (got ++ [s.pipe.data (s.pipe.nread.toNat % PIPESIZE)]).length)
        + 1 := by
      rw [length_append, length_singleton]
      omega
    rw [returned, length, grown, stored, drop_eq_getElem_cons left, value, rest, take_succ_cons,
      append_assoc]
    rfl

/-- A read that finds the write end closed, undisturbed. -/
theorem piperead_runs (addr : Nat → UInt8) (channel : Channel s) (may : s.mayLock q = true)
    (outside : s.point q = .outside) (closed : s.pipe.writeopen = false) (n : Nat) :
    ∃ turns t, Run.exec step s (.piperead q n :: List.replicate turns (.turn q addr)) = some t ∧
      t.lock = none ∧ t.point q = .outside ∧ t.stored = s.stored ∧
      t.returned = s.returned ++ (s.stored.drop s.returned.length).take n := by
  have free := mayLock_free may
  have called : step s (.piperead q n) = some (s.acquire q (.reading n)) := by
    simp only [step, may, outside, beq_self_eq_true, Bool.and_self, if_true]
  let u := s.acquire q (.reading n)
  have ready : step u (.turn q addr) = some (u.setPoint q (.copying n [])) := by
    have there : u.point q = .reading n := update_self _ _ _
    have closed' : u.pipe.writeopen = false := closed
    rw [step_turn rfl, turn, there]
    simp only [closed', Bool.and_false, Bool.false_eq_true, if_false]
  have copying := channel_step (channel_step channel called) ready
  have taken : (u.setPoint q (.copying n [])).taken = s.returned := by
    rw [taken_held (q := q) rfl]
    show s.returned ++ (update u.point q _ q).inHand = _
    rw [update_self]
    exact append_nil _
  obtain ⟨t, run, released, back, same, returned⟩ :=
    copy_runs addr (m := min n (s.stored.length - s.returned.length)) copying rfl
      (update_self _ _ _) (by rw [taken]; rfl)
  refine ⟨min n (s.stored.length - s.returned.length) + 1 + 1, t, ?_, released, back, same, ?_⟩
  · rw [Run.exec_cons_of_step step called, replicate_succ, Run.exec_cons_of_step step ready]
    exact run
  · rw [returned, taken]
    rfl

/-- A read of at least one byte returns 0 only when the write end is closed and every byte that was
stored has been returned. -/
theorem Channel.eof (channel : Channel s) (held : s.lock = some q)
    (before : s.point q = .copying n got) (positive : 0 < n) (zero : result s q = some 0) :
    s.pipe.writeopen = false ∧ s.returned = s.stored := by
  rw [result, before] at zero
  obtain ⟨stops, none⟩ := ite_none_left_eq_some.mp zero
  have nothing : got = [] := eq_nil_of_length_eq_zero (by simpa using none)
  subst nothing
  have empty : s.pipe.empty = true := by
    simpa [positive] using stops
  have same : s.taken = s.returned := by
    rw [taken_held held, before]
    exact append_nil _
  constructor
  · rcases channel.ready q n held before with more | closed
    · rw [empty] at more
      cases more
    · exact closed
  · rw [← same]
    exact channel.order.eq_of_length (channel.empty_iff.mp empty)

/-- In every state that calls on a new pipe lead to, the bytes returned by reads are a prefix of the
bytes stored by writers and the counters are at most `PIPESIZE` apart. A read that returns 0 has
left nothing behind, and once the write end is closed a read of `n` bytes gets the next `n` bytes
that are left. -/
theorem pipe_fifo (k : Kernel) (data : Nat → UInt8) (events : List Event) (s : State)
    (run : Run.exec step (pipealloc k data) events = some s) :
    s.returned <+: s.stored ∧ (s.pipe.nwrite - s.pipe.nread).toNat ≤ PIPESIZE ∧
    (∀ q n got, s.lock = some q → s.point q = .copying n got → 0 < n → result s q = some 0 →
      s.pipe.writeopen = false ∧ s.returned = s.stored) ∧
    ∀ q n addr, s.mayLock q = true → s.point q = .outside → s.pipe.writeopen = false →
      ∃ turns t, Run.exec step s (.piperead q n :: List.replicate turns (.turn q addr)) = some t ∧
        t.lock = none ∧ t.point q = .outside ∧ t.stored = s.stored ∧
        t.returned = s.returned ++ (s.stored.drop s.returned.length).take n := by
  have channel : Channel s :=
    Run.exec_invariant Channel (fun _ _ _ before _ taken => channel_step before taken)
      (channel_pipealloc k data) (Run.steps_of_forall (fun _ _ => trivial) _ events) run
  have behind := channel.ring.behind
  have fits := channel.ring.fits
  refine ⟨(prefix_append _ _).trans channel.order, ?_, ?_, ?_⟩
  · unfold PIPESIZE at fits ⊢
    rw [channel.nread, channel.nwrite, Ring.counter_sub behind (by omega)]
    omega
  · intro q n got held before positive zero
    exact channel.eof held before positive zero
  · intro q n addr may outside closed
    exact piperead_runs addr channel may outside closed n

/-- Two processes that run, with the pids 1 and 2. -/
def pair : Kernel :=
  let k := Kernel.boot Process.smallMem
  (k.setProc 0 { k.proc 0 with state := .running, pid := 1 }).setProc 1
    { k.proc 1 with state := .running, pid := 2 }

/-- Three bytes are written and two of them read. -/
theorem pipe_fifo_pair :
    ∃ s, Run.exec step (pipealloc pair fun _ => 0)
        (.pipewrite 0 3 :: List.replicate 4 (.turn 0 fun i => UInt8.ofNat (i + 7)) ++
          .piperead 1 2 :: List.replicate 4 (.turn 1 fun _ => 0)) = some s ∧
      s.returned = [7, 8] ∧ s.returned <+: s.stored := by
  have run : ((Run.exec step (pipealloc pair fun _ => 0)
      (.pipewrite 0 3 :: List.replicate 4 (.turn 0 fun i => UInt8.ofNat (i + 7)) ++
        .piperead 1 2 :: List.replicate 4 (.turn 1 fun _ => 0))).map fun s => s.returned) =
      some [7, 8] := by decide +kernel
  obtain ⟨s, run, returned⟩ := map_eq_some_iff.mp run
  exact ⟨s, run, returned, (pipe_fifo pair (fun _ => 0) _ s run).1⟩

end Xv6.Pipes
