import Xv6.Log.Buffers

/- `commit` as run by the last `end_op`, one disk write at a time. -/
namespace Xv6.Log

open Function Bytes GroupStore

variable {g : Layout} {s : Sys} {a : Store Nat Block} {tail : Nat}

theorem Gathering.setPc (holds : Gathering g s a) (agent : Agent) (pc : Option Pc) :
    Gathering g (s.setPc agent pc) a :=
  ⟨holds.headEmpty, holds.view, holds.dirty, holds.distinct⟩

theorem Installing.setPc (holds : Installing g s a tail) (agent : Agent) (pc : Option Pc) :
    Installing g (s.setPc agent pc) a tail :=
  ⟨holds.durable, holds.count, holds.block, holds.copied, holds.view, holds.dirty⟩

theorem Installed.setPc (holds : Installed g s a) (agent : Agent) (pc : Option Pc) :
    Installed g (s.setPc agent pc) a :=
  ⟨holds.durable, holds.empty, holds.view, holds.settled⟩

theorem CommitPhase.setPc {pc : Pc} (holds : CommitPhase g s a pc) (agent : Agent)
    (next : Option Pc) : CommitPhase g (s.setPc agent next) a pc := by
  cases pc with
  | readHead => exact holds
  | entry => exact Gathering.setPc holds agent next
  | writeLog tail => exact ⟨Gathering.setPc holds.1 agent next, holds.2⟩
  | writeHead => exact ⟨Gathering.setPc holds.1 agent next, holds.2⟩
  | install tail => exact Installing.setPc holds agent next
  | clear => exact Installing.setPc holds agent next
  | erase => exact Installed.setPc holds agent next
  | finish => exact Gathering.setPc holds agent next

/-- The relation after a step of `commit` that leaves the log in memory alone. -/
theorem related_commit {t : Sys} {b : Store Nat Block} {pc : Pc} (ops : Ops g t b) (clean : t.Clean)
    (headerOk : HeaderOk g t.disk) (recoverable : ∀ c, g.home c → redo g t.disk c = b.committed c)
    (boot : t.pc .boot = none) (locked : t.committing = true) (alone : t.active = [])
    (holds : CommitPhase g t b pc) : Related g (t.setPc .endOp (some pc)) b :=
  ⟨ops.setPc (by decide) _, clean, headerOk, recoverable,
    phase_commit boot (by simp) locked alone (holds.setPc _ _)⟩

/-- A log block is never dirty: only home blocks are. -/
theorem not_dirtyAt_log {i : Nat} (home : ∀ j < s.lh.n, g.home (s.lh.block j))
    (dirty : ∀ b, s.DirtyAt b → ∃ j, tail ≤ j ∧ j < s.lh.n ∧ s.lh.block j = b)
    (inside : i + 1 < g.size) :
    ¬ s.DirtyAt (g.start + i + 1) := by
  intro flagged
  obtain ⟨j, _, bound, same⟩ := dirty _ flagged
  exact (home j bound).ne_logBlock inside same.symm

theorem headerOk_of_installing (ops : Ops g s a) (holds : Installing g s a tail)
    (fits : s.lh.n + 1 ≤ g.size) (small : s.lh.n ≤ LOGSIZE) : HeaderOk g s.disk := by
  refine ⟨?_, ?_, ?_⟩
  · rw [holds.count]; exact fits
  · rw [holds.count]; exact small
  · intro i inside
    rw [holds.count] at inside
    rw [holds.block i inside]
    exact ops.entriesHome i inside

/-- From the header write on, redoing the log gives the state of the new commit. -/
theorem redo_of_installing (clean : s.Clean) (holds : Installing g s a tail) (b : Nat)
    (home : g.home b) :
    redo g s.disk b = a.committed b := by
  rw [Store.committed_of_all holds.durable]
  apply Writes.apply_uniform
  · intro write member same
    obtain ⟨i, inside, rfl⟩ := List.mem_map.mp member
    have bound : i < s.lh.n := by rw [← holds.count]; exact List.mem_range.mp inside
    change s.disk (g.start + i + 1) = _
    rw [holds.copied i bound, ← same, ← holds.block i bound]
  by_cases entry : ∃ i < s.lh.n, s.lh.block i = b
  · obtain ⟨i, bound, same⟩ := entry
    refine .inl ⟨_, List.mem_map.mpr ⟨i, ?_, rfl⟩, ?_⟩
    · rw [List.mem_range, holds.count]; exact bound
    · exact (holds.block i bound).trans same
  · have settled : ¬ s.DirtyAt b := by
      intro flagged
      obtain ⟨i, _, bound, same⟩ := holds.dirty b flagged
      exact entry ⟨i, bound, same⟩
    exact .inr (by rw [← clean.view_eq_disk settled, holds.view b home])

theorem commit_entry (rel : Related g s a) (here : s.pc .endOp = some .entry) :
    Related g (advance g s .endOp .entry) a := by
  obtain ⟨boot, locked, alone, holds⟩ := rel.commit_phase here
  simp only [advance]
  split
  · exact related_commit rel.ops rel.clean rel.headerOk rel.recoverable boot locked alone
      ⟨holds, Nat.zero_le _, by simp, by intro i; omega⟩
  · exact related_commit rel.ops rel.clean rel.headerOk rel.recoverable boot locked alone holds

/-- A copy in the log area is invisible while the header is empty. -/
theorem gathering_writeLogBlock (ops : Ops g s a) (holds : Gathering g s a)
    (room : tail + 1 < g.size) : Gathering g (writeLogBlock g s tail) a := by
  have quiet := quiet_writeLogBlock g s tail
  refine ⟨?_, ?_, ?_, by rw [quiet.lh]; exact holds.distinct⟩
  · rw [headCount, writeLogBlock_disk, update_of_ne (by omega)]
    exact holds.headEmpty
  · intro b home
    have apart : b ≠ g.start + tail + 1 := (home.ne_logBlock room).symm
    rw [writeLogBlock_view, if_neg apart]
    exact holds.view b home
  · intro b
    rw [quiet.lh, writeLogBlock_dirtyAt, holds.dirty]
    refine ⟨And.right, fun entry => ⟨?_, entry⟩⟩
    obtain ⟨i, bound, rfl⟩ := entry
    exact ((ops.entriesHome i bound).ne_logBlock room).symm

theorem commit_writeLog (rel : Related g s a) (here : s.pc .endOp = some (.writeLog tail))
    (space : NBUF ≤ g.size) (fewer : tail < s.lh.n → s.lh.n < NBUF) :
    Related g (advance g s .endOp (.writeLog tail)) a := by
  obtain ⟨boot, locked, alone, holds, reached, _, copied⟩ := rel.commit_phase here
  simp only [advance]
  split
  · rename_i inside
    have quiet := quiet_writeLogBlock g s tail
    have room : tail + 1 < g.size := by have := fewer inside; omega
    have gathering := gathering_writeLogBlock rel.ops holds room
    refine related_commit (rel.ops.of_quiet quiet) (clean_writeLogBlock rel.clean tail)
      (HeaderOk.of_empty gathering.headEmpty) ?_ (by rw [quiet.pc]; exact boot)
      (by rw [quiet.committing]; exact locked) (by rw [quiet.active]; exact alone)
      ⟨gathering, ?_, ?_, ?_⟩
    · intro b home
      have apart : b ≠ g.start + tail + 1 := (home.ne_logBlock room).symm
      rw [redo_of_empty gathering.headEmpty, writeLogBlock_disk, update_of_ne apart]
      exact rel.disk_of_empty holds.headEmpty home
    · rw [quiet.lh]; exact inside
    · rw [quiet.lh]; exact fun _ => fewer inside
    intro i before
    rw [writeLogBlock_disk, quiet.lh]
    by_cases last : i = tail
    · subst last
      rw [update_self]
      exact holds.view _ (rel.ops.entriesHome i inside)
    · rw [update_of_ne (by omega)]
      exact copied i (by omega)
  · rename_i all
    exact related_commit rel.ops rel.clean rel.headerOk rel.recoverable boot locked alone
      ⟨holds, fun i inside => copied i (by omega)⟩

/-- The header write is the commit point: the abstract store commits with it. -/
theorem commit_writeHead (rel : Related g s a) (here : s.pc .endOp = some .writeHead)
    (fits : s.lh.n + 1 ≤ g.size) (small : s.lh.n ≤ LOGSIZE) :
    Related g (advance g s .endOp .writeHead) { a with durable := a.history.length } := by
  obtain ⟨boot, locked, alone, holds, copied⟩ := rel.commit_phase here
  have quiet := quiet_writeHead g s
  have word : s.lh.n < 2 ^ 32 := Nat.lt_of_le_of_lt small (by decide)
  have ops : Ops g (writeHead g s) { a with durable := a.history.length } :=
    { rel.ops.of_quiet quiet with durable := Nat.le_refl _ }
  have installing : Installing g (writeHead g s) { a with durable := a.history.length } 0 := by
    refine ⟨rfl, ?_, ?_, ?_, ?_, ?_⟩
    · rw [quiet.lh]; exact headCount_writeHead g s word
    · intro i inside
      rw [quiet.lh] at inside ⊢
      exact headBlock_writeHead g s rel.ops.entriesWord i inside
    · intro i inside
      rw [quiet.lh] at inside ⊢
      rw [writeHead_disk, update_of_ne (by omega)]
      exact copied i inside
    · intro b home
      rw [writeHead_view, if_neg home.ne_header]
      exact holds.view b home
    · intro b flagged
      obtain ⟨i, inside, same⟩ := (holds.dirty b).mp ((writeHead_dirtyAt g s b).mp flagged).2
      exact ⟨i, Nat.zero_le _, by rw [quiet.lh]; exact inside, by rw [quiet.lh]; exact same⟩
  have headerOk := headerOk_of_installing ops installing (by rw [quiet.lh]; exact fits)
    (by rw [quiet.lh]; exact small)
  exact related_commit ops (clean_writeHead rel.clean) headerOk
    (redo_of_installing (clean_writeHead rel.clean) installing) (by rw [quiet.pc]; exact boot)
    (by rw [quiet.committing]; exact locked) (by rw [quiet.active]; exact alone) installing

theorem installing_installBlock (ops : Ops g s a) (clean : s.Clean) (holds : Installing g s a tail)
    (fit : s.lh.n + 1 ≤ g.size) (inside : tail < s.lh.n) :
    Installing g (installBlock g s tail) a (tail + 1) := by
  have quiet := quiet_installBlock g s tail
  have target := ops.entriesHome tail inside
  have source : s.view (g.start + tail + 1) = a.current (s.lh.block tail) := by
    rw [clean.view_eq_disk (not_dirtyAt_log ops.entriesHome holds.dirty (by omega))]
    exact holds.copied tail inside
  refine ⟨holds.durable, ?_, ?_, ?_, ?_, ?_⟩
  · rw [headCount, installBlock_disk, update_of_ne target.ne_header.symm, quiet.lh]
    exact holds.count
  · intro i bound
    rw [quiet.lh] at bound ⊢
    rw [headBlock, installBlock_disk, update_of_ne target.ne_header.symm]
    exact holds.block i bound
  · intro i bound
    rw [quiet.lh] at bound ⊢
    rw [installBlock_disk, update_of_ne (target.ne_logBlock (by omega))]
    exact holds.copied i bound
  · intro b home
    rw [installBlock_view]
    split
    · rename_i same
      rw [source, same]
    · exact holds.view b home
  · intro b flagged
    obtain ⟨apart, before⟩ := (installBlock_dirtyAt g s tail b).mp flagged
    obtain ⟨i, low, bound, same⟩ := holds.dirty b before
    have next : i ≠ tail := by
      rintro rfl
      exact apart same.symm
    exact ⟨i, by omega, by rw [quiet.lh]; exact bound, by rw [quiet.lh]; exact same⟩

section

variable (rel : Related g s a)
include rel

theorem commit_install (here : s.pc .endOp = some (.install tail)) :
    Related g (advance g s .endOp (.install tail)) a := by
  obtain ⟨boot, locked, alone, holds⟩ := rel.commit_phase here
  simp only [advance]
  split
  · rename_i inside
    have quiet := quiet_installBlock g s tail
    have clean := clean_installBlock (g := g) rel.clean tail
    have ops := rel.ops.of_quiet quiet
    have fits := rel.headerOk.fits
    have small := rel.headerOk.small
    rw [holds.count] at fits small
    have installing := installing_installBlock rel.ops rel.clean holds fits inside
    have headerOk := headerOk_of_installing ops installing (by rw [quiet.lh]; exact fits)
      (by rw [quiet.lh]; exact small)
    exact related_commit ops clean headerOk
      (redo_of_installing clean installing) (by rw [quiet.pc]; exact boot)
      (by rw [quiet.committing]; exact locked) (by rw [quiet.active]; exact alone) installing
  · rename_i all
    refine related_commit rel.ops rel.clean rel.headerOk rel.recoverable boot locked alone
      (show Installing g s a s.lh.n from { holds with dirty := ?_ })
    intro b flagged
    obtain ⟨i, low, bound, _⟩ := holds.dirty b flagged
    omega

theorem commit_clear (here : s.pc .endOp = some .clear) :
    Related g (advance g s .endOp .clear) a := by
  obtain ⟨boot, locked, alone, holds⟩ := rel.commit_phase here
  refine related_commit rel.ops.clear rel.clean rel.headerOk rel.recoverable boot locked alone
    (show Installed _ _ _ from ⟨holds.durable, rfl, holds.view, ?_⟩)
  intro b flagged
  obtain ⟨i, low, bound, _⟩ := holds.dirty b flagged
  omega

theorem commit_erase (here : s.pc .endOp = some .erase) :
    Related g (advance g s .endOp .erase) a := by
  obtain ⟨boot, locked, alone, holds⟩ := rel.commit_phase here
  have quiet := quiet_writeHead g s
  have empty : headCount g (writeHead g s).disk = 0 := by
    rw [headCount, writeHead_disk, update_self]
    exact getWord_putHeader_empty _ _ holds.empty
  refine related_commit (rel.ops.of_quiet quiet) (clean_writeHead rel.clean)
    (HeaderOk.of_empty empty) ?_ (by rw [quiet.pc]; exact boot)
    (by rw [quiet.committing]; exact locked) (by rw [quiet.active]; exact alone)
    (show Gathering _ _ _ from ⟨empty, ?_, ?_, ?_⟩)
  · intro b home
    rw [redo_of_empty empty, writeHead_disk, update_of_ne home.ne_header,
      ← rel.clean.view_eq_disk (holds.settled b), holds.view b home,
      Store.committed_of_all holds.durable]
  · intro b home
    rw [writeHead_view, if_neg home.ne_header]
    exact holds.view b home
  · intro b
    rw [quiet.lh, holds.empty, writeHead_dirtyAt]
    simp [holds.settled b]
  · rw [quiet.lh, holds.empty]
    simp

theorem commit_finish (here : s.pc .endOp = some .finish) :
    Related g (advance g s .endOp .finish) a := by
  obtain ⟨boot, locked, alone, holds⟩ := rel.commit_phase here
  have ops : Ops g { s with committing := false } a :=
    ⟨rel.ops.noSync, rel.ops.active, rel.ops.outstanding, rel.ops.durable, rel.ops.pending,
      rel.ops.entriesHome⟩
  refine ⟨ops.setPc (by decide) _, rel.clean, rel.headerOk, rel.recoverable, ?_⟩
  exact phase_idle boot (by simp [advance]) rfl
    ⟨holds.headEmpty, holds.view, holds.dirty, holds.distinct⟩

/-- Every step of `commit` that finds its buffers keeps the relation, the header write with a
commit of the store. -/
theorem related_step_endOp {pc : Pc} (here : s.pc .endOp = some pc) (room : NBUF ≤ g.size)
    (buffered : Buffered g s (.step .endOp)) :
    ∃ b, Run.exec Store.step a (seen s (.step .endOp)) = some b ∧
      Related g (advance g s .endOp pc) b := by
  have read : ∀ c ∈ reads g s pc, c ∈ touched g s (.step .endOp) := by
    intro c member
    rw [touched, here]
    exact member
  by_cases point : pc = .writeHead
  · subst point
    have fewer := (rel.commit_phase here).2.2.2.1.length_lt_NBUF rel.ops.entriesHome buffered
      (read g.start (.head _)) fun home => home.ne_header rfl
    refine ⟨_, ?_, commit_writeHead rel here (by omega) (Nat.le_of_lt fewer)⟩
    have alone : a.active = [] := by rw [rel.ops.active]; exact (rel.commit_phase here).2.2.1
    simp only [seen, here, ↓reduceIte, Run.exec_cons, Store.step, alone,
      Option.bind_some, Run.exec_nil]
  refine ⟨a, ?_, ?_⟩
  · simp only [seen, here, Option.some.injEq, point, ↓reduceIte, Run.exec_nil]
  cases pc with
  | readHead => exact (rel.commit_phase here).2.2.2.elim
  | entry => exact commit_entry rel here
  | writeLog tail =>
    refine commit_writeLog rel here room fun inside => ?_
    obtain ⟨gathering, _, begun, _⟩ := (rel.commit_phase here).2.2.2
    -- the first log block is in the log area for certain; the later ones are once it had a buffer
    by_cases first : tail = 0
    · subst first
      apply gathering.length_lt_NBUF rel.ops.entriesHome buffered
      · exact read (g.start + 0 + 1) (by simp [reads, inside])
      · exact fun home => home.ne_logBlock (i := 0) (Nat.lt_of_lt_of_le (by decide) room) rfl
    · exact begun (Nat.pos_of_ne_zero first)
  | writeHead => exact absurd rfl point
  | install tail => exact commit_install rel here
  | clear => exact commit_clear rel here
  | erase => exact commit_erase rel here
  | finish => exact commit_finish rel here

end

end Xv6.Log
