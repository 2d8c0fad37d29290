import Xv6.Log.Admission

/- The processes that sleep on `&log` in `begin_op`. `end_op` wakes them up, at once or at the end
of its commit. -/
namespace Xv6.Log

open Bytes Option

structure Waiting where
  log : Sys
  asleep : List Nat

/-- `beginOp` is `begin_op`, or its loop after a wake-up; `woken` is a `kill` of a process that
sleeps. -/
inductive WaitEvent where
  | beginOp (p : Nat)
  | woken (p : Nat)
  | logCheck (p b : Nat) (data : Block)
  | logAppend (p : Nat)
  | endOp (p : Nat)
  | commit
  | bread (b : Nat)
  | recycle (b : Nat)

/-- `wakeup(&log)` comes with the end of an operation that does not commit, and with the end of a
commit. -/
def waitStep (g : Layout) (w : Waiting) : WaitEvent → Option Waiting
  | .beginOp p =>
    if p ∉ w.asleep ∧ p ∉ w.log.active then
      match beginOp w.log p with
      | some log => some { w with log := log }
      | none => some { w with asleep := p :: w.asleep }
    else none
  | .woken p => some { w with asleep := w.asleep.erase p }
  | .logCheck p b data => (logCheck g w.log p b data).map fun log => { w with log := log }
  | .logAppend p => (logAppend w.log p).map fun log => { w with log := log }
  | .endOp p =>
    (endOp g w.log p).map fun log => ⟨log, if log.committing then w.asleep else []⟩
  | .commit =>
    (w.log.pc .endOp).map fun pc =>
      ⟨advance g w.log .endOp pc, if pc = .finish then [] else w.asleep⟩
  | .bread b => some { w with log := w.log.bread b }
  | .recycle b => (recycle w.log b).map fun log => { w with log := log }

variable {g : Layout} {w next : Waiting} {p : Nat}

/-- A quiet log is at most half full, and nobody sleeps on it. -/
structure WaitInv (g : Layout) (w : Waiting) : Prop where
  ops : OpInv w.log
  calm : w.log.outstanding = 0 → w.log.committing = false → w.log.lh.n ≤ g.size / 2 ∧ w.asleep = []

theorem beginOp_isSome {s : Sys} (inv : OpInv s) (outside : p ∉ s.active)
    (unlocked : s.committing = false)
    (room : s.lh.n + (s.outstanding + 1) * MAXOPBLOCKS ≤ LOGSIZE) :
    (beginOp s p).isSome = true := by
  unfold beginOp
  rw [if_neg, if_neg, if_neg]
  · rfl
  · exact Nat.not_lt.mpr room
  · rw [unlocked]
    exact Bool.false_ne_true
  · rw [not_or, not_not]
    exact ⟨inv.noBoot, outside⟩

/-- The reservation of one operation fits into the half of the log that is left. -/
theorem half_leaves_room {n size : Nat} (whole : size = LOGSIZE) (half : n ≤ size / 2) :
    n + (0 + 1) * MAXOPBLOCKS ≤ LOGSIZE := by
  rw [whole] at half
  have bound : LOGSIZE / 2 + 1 * MAXOPBLOCKS ≤ LOGSIZE := by decide
  omega

/-- Somebody sleeps only while an operation or a commit is on. -/
theorem waitInv_beginOp (whole : g.size = LOGSIZE) (inv : WaitInv g w)
    (taken : waitStep g w (.beginOp p) = some next) : WaitInv g next := by
  obtain ⟨given, taken⟩ := ite_none_right_eq_some.mp taken
  split at taken
  · rename_i log begun
    cases taken
    refine ⟨opInv_beginOp inv.ops begun, ?_⟩
    intro quiet
    rw [(beginOp_eq_some begun).2.2.2.2] at quiet
    cases quiet
  · rename_i refused
    cases taken
    refine ⟨inv.ops, ?_⟩
    intro quiet unlocked
    exfalso
    have admitted : (beginOp w.log p).isSome = true := by
      apply beginOp_isSome inv.ops given.2 unlocked
      rw [show w.log.outstanding = 0 from quiet]
      exact half_leaves_room whole (inv.calm quiet unlocked).1
    rw [refused] at admitted
    cases admitted

theorem waitInv_endOp (inv : WaitInv g w) (taken : waitStep g w (.endOp p) = some next) :
    WaitInv g next := by
  obtain ⟨log, done, same⟩ := map_eq_some_iff.mp taken
  rw [← same]
  refine ⟨opInv_endOp inv.ops done, ?_⟩
  intro quiet unlocked
  dsimp only at quiet unlocked ⊢
  rw [unlocked, if_neg Bool.false_ne_true]
  obtain ⟨_, _, _, commits⟩ := endOp_eq_some done
  rcases commits with ⟨_, _, starts⟩ | ⟨half, ends⟩
  · rw [starts] at unlocked
    cases unlocked
  · rw [ends] at quiet ⊢
    exact ⟨half quiet, rfl⟩

theorem waitInv_commit (inv : WaitInv g w) (taken : waitStep g w .commit = some next) :
    WaitInv g next := by
  obtain ⟨pc, here, same⟩ := map_eq_some_iff.mp taken
  rw [← same]
  have after := opInv_advance (g := g) inv.ops here
  refine ⟨after, ?_⟩
  intro _ unlocked
  dsimp only at unlocked ⊢
  -- before its last step the commit still holds the log
  by_cases last : pc = .finish
  · rw [if_pos last]
    subst last
    refine ⟨?_, rfl⟩
    show w.log.lh.n ≤ g.size / 2
    rw [(inv.ops.cleared _ here).2 (.inr rfl)]
    exact Nat.zero_le _
  · have stays : (advance g w.log .endOp pc).committing = true := by
      rw [advance_committing last (inv.ops.cleared pc here).1]
      exact inv.ops.locked here
    rw [stays] at unlocked
    cases unlocked

theorem waitInv_step {event : WaitEvent} (whole : g.size = LOGSIZE) (inv : WaitInv g w)
    (taken : waitStep g w event = some next) : WaitInv g next := by
  cases event with
  | beginOp p => exact waitInv_beginOp whole inv taken
  | endOp p => exact waitInv_endOp inv taken
  | commit => exact waitInv_commit inv taken
  | woken p =>
    cases taken
    refine ⟨inv.ops, ?_⟩
    intro quiet unlocked
    have before := inv.calm quiet unlocked
    refine ⟨before.1, ?_⟩
    show w.asleep.erase p = []
    rw [before.2, List.erase_nil]
  | logCheck p b data =>
    obtain ⟨log, checked, same⟩ := map_eq_some_iff.mp taken
    rw [← same]
    refine ⟨opInv_logCheck inv.ops checked, ?_⟩
    rw [(logCheck_eq_some checked).2.2.2.2.2]
    exact inv.calm
  | logAppend p =>
    obtain ⟨log, appended, same⟩ := map_eq_some_iff.mp taken
    rw [← same]
    have after := opInv_logAppend inv.ops appended
    refine ⟨after, ?_⟩
    intro quiet
    -- the process that logs is inside an operation
    obtain ⟨b, data, held, _⟩ := logAppend_eq_some appended
    have member := inv.ops.pending p _ held
    have busy : log.outstanding = w.log.outstanding := by
      obtain ⟨_, _, _, same⟩ := logAppend_eq_some appended
      rw [same]
    have empty : w.log.active = [] := by
      apply List.eq_nil_of_length_eq_zero
      rw [← inv.ops.counted, ← busy]
      exact quiet
    rw [empty] at member
    cases member
  | bread b =>
    cases taken
    have quiet := quiet_bread w.log b
    refine ⟨inv.ops.congr quiet, ?_⟩
    dsimp only
    rw [quiet.outstanding, quiet.committing, quiet.lh]
    exact inv.calm
  | recycle b =>
    obtain ⟨log, recycled, same⟩ := map_eq_some_iff.mp taken
    rw [← same]
    have quiet := quiet_recycle recycled
    refine ⟨inv.ops.congr quiet, ?_⟩
    dsimp only
    rw [quiet.outstanding, quiet.committing, quiet.lh]
    exact inv.calm

/-- Whenever no operation is outstanding and no commit is running, the log is at most half full,
every process is admitted, and nobody is asleep on the log. -/
theorem admission_never_blocked {disk : Nat → Block} {events : List WaitEvent} {last : Waiting}
    (whole : g.size = LOGSIZE) (run : Run.exec (waitStep g) ⟨started disk, []⟩ events = some last)
    (quiet : last.log.outstanding = 0) (unlocked : last.log.committing = false) :
    last.log.lh.n ≤ g.size / 2 ∧ (∀ p, (beginOp last.log p).isSome = true) ∧ last.asleep = [] := by
  have start : WaitInv g ⟨started disk, []⟩ :=
    ⟨opInv_started disk, fun _ _ => ⟨Nat.zero_le _, rfl⟩⟩
  have inv : WaitInv g last :=
    Run.exec_invariant (WaitInv g) (fun _ _ _ inv _ taken => waitInv_step whole inv taken) start
      (Run.steps_of_forall (fun _ _ => trivial) _ _) run
  have calm := inv.calm quiet unlocked
  refine ⟨calm.1, ?_, calm.2⟩
  intro p
  have nobody : last.log.active = [] :=
    List.eq_nil_of_length_eq_zero (inv.ops.counted.symm.trans quiet)
  apply beginOp_isSome inv.ops _ unlocked
  · rw [quiet]
    exact half_leaves_room whole calm.1
  · rw [nobody]
    exact List.not_mem_nil

/-- Three operations are on, a fourth process sleeps and is let in after two have ended. -/
def fourOperations : List WaitEvent :=
  [.beginOp 0, .beginOp 1, .beginOp 2, .beginOp 3, .logCheck 0 100 (fill 7), .logAppend 0,
    .endOp 0, .endOp 1, .beginOp 3, .endOp 2, .endOp 3]

theorem admission_never_blocked_four : ∃ last,
    Run.exec (waitStep fsLog) ⟨started fun _ => zero, []⟩ fourOperations = some last ∧
      last.log.outstanding = 0 ∧ last.log.committing = false ∧ last.log.lh.n ≤ fsLog.size / 2 ∧
      (∀ p, (beginOp last.log p).isSome = true) ∧ last.asleep = [] := by
  have run : ∃ last, Run.exec (waitStep fsLog) ⟨started fun _ => zero,
      []⟩ fourOperations = some last ∧
        last.log.outstanding = 0 ∧ last.log.committing = false := ⟨_, rfl, rfl, rfl⟩
  obtain ⟨last, ends, quiet, unlocked⟩ := run
  exact ⟨last, ends, quiet, unlocked, admission_never_blocked rfl ends quiet unlocked⟩

end Xv6.Log
