import Xv6.Log.CommitSteps

/- `recover_from_log`, one disk write at a time, from a disk that any crash may have left. -/
namespace Xv6.Log

open Bytes GroupStore Function List

variable {g : Layout} {s : Sys} {a : Store Nat Block}

theorem BootPhase.setPc {pc : Pc} (holds : BootPhase g s a pc) (agent : Agent)
    (next : Option Pc) : BootPhase g (s.setPc agent next) a pc := by
  cases pc <;> exact holds

theorem related_boot {t : Sys} {pc : Pc} (ops : Ops g t a) (clean : t.Clean)
    (headerOk : HeaderOk g t.disk) (recoverable : ∀ b, g.home b → redo g t.disk b = a.committed b)
    (commit : t.pc .endOp = none) (unlocked : t.committing = false) (alone : t.active = [])
    (durable : a.durable = a.history.length) (settled : ∀ b, ¬ t.DirtyAt b)
    (holds : BootPhase g t a pc) : Related g (t.setPc .boot (some pc)) a :=
  ⟨ops.setPc (by decide) _, clean, headerOk, recoverable,
    phase_boot (by simp) commit unlocked alone durable settled (holds.setPc _ _)⟩

theorem boot_readHead (rel : Related g s a) (here : s.pc .boot = some .readHead) :
    Related g (advance g s .boot .readHead) a := by
  obtain ⟨commit, unlocked, alone, durable, settled, _⟩ := rel.boot_phase here
  have view : (s.bread g.start).view g.start = s.disk g.start := by
    rw [Sys.bread_view, rel.clean.view_eq_disk (settled _)]
  have disk : (readHead g s).disk = s.disk := by simp [readHead]
  have count : (readHead g s).lh.n = headCount g s.disk := by
    simp only [readHead, getHeader, view, headCount]
  have block : ∀ i < (readHead g s).lh.n, (readHead g s).lh.block i = headBlock g s.disk i := by
    intro i inside
    rw [count] at inside
    change i < getWord (s.disk g.start) 0 at inside
    simp only [readHead, getHeader, view, headBlock, inside, ↓reduceIte]
  have ops : Ops g (readHead g s) a := by
    refine ⟨by simpa [readHead] using rel.ops.noSync, by simpa [readHead] using rel.ops.active,
      by simpa [readHead] using rel.ops.outstanding, rel.ops.durable,
      by simpa [readHead] using rel.ops.pending, ?_⟩
    intro i inside
    rw [block i inside]
    rw [count] at inside
    exact rel.headerOk.home i inside
  refine related_boot ops ?_ (by rw [disk]; exact rel.headerOk)
    (by rw [disk]; exact rel.recoverable) (by simpa [readHead] using commit)
    (by simpa [readHead] using unlocked) (by simpa [readHead] using alone) durable ?_ ?_
  · exact rel.clean.bread g.start
  · intro b flagged
    exact settled b ((Sys.bread_dirtyAt s g.start b).mp flagged)
  · refine ⟨by rw [disk]; exact count, by rw [disk]; exact block, ?_⟩
    intro b home
    rw [disk, drop_zero, ← Store.committed_of_all durable]
    exact rel.recoverable b home

/-- The log on disk is not changed by installing one of its blocks. -/
theorem logged_installBlock {tail : Nat} (ok : HeaderOk g s.disk)
    (target : g.home (s.lh.block tail)) :
    headCount g (installBlock g s tail).disk = headCount g s.disk ∧
      headBlock g (installBlock g s tail).disk = headBlock g s.disk ∧
      logged g (installBlock g s tail).disk = logged g s.disk := by
  rw [installBlock_disk]
  have same : SameLog g (headCount g s.disk) s.disk
      (update s.disk (s.lh.block tail) (s.view (g.start + tail + 1))) :=
    sameLog_update target ok.fits _
  refine ⟨?_, ?_, (logged_congr same).symm⟩
  · rw [headCount, ← same.1]; rfl
  · funext i
    rw [headBlock, ← same.1]; rfl

section

variable (rel : Related g s a)
include rel

theorem boot_install {tail : Nat} (here : s.pc .boot = some (.install tail)) :
    Related g (advance g s .boot (.install tail)) a := by
  obtain ⟨commit, unlocked, alone, durable, settled, count, block, pending⟩ := rel.boot_phase here
  simp only [advance]
  split
  · rename_i inside
    have quiet := quiet_installBlock g s tail
    have target := rel.ops.entriesHome tail inside
    have source := rel.clean.view_eq_disk (settled (g.start + tail + 1))
    obtain ⟨sameCount, sameBlock, sameLog⟩ := logged_installBlock rel.headerOk target
    have bound : tail < (logged g s.disk).length := by
      simp only [logged, length_map, length_range]
      omega
    have write : (s.lh.block tail, s.disk (g.start + tail + 1)) = (logged g s.disk)[tail] := by
      simp only [logged, getElem_map, getElem_range, block tail inside]
    refine related_boot (rel.ops.of_quiet quiet) (clean_installBlock rel.clean tail)
      ⟨?_, ?_, ?_⟩ ?_ (by rw [quiet.pc]; exact commit) (by rw [quiet.committing]; exact unlocked)
      (by rw [quiet.active]; exact alone) durable ?_ ⟨?_, ?_, ?_⟩
    · rw [sameCount]; exact rel.headerOk.fits
    · rw [sameCount]; exact rel.headerOk.small
    · rw [sameCount, sameBlock]; exact rel.headerOk.home
    · intro b home
      rw [redo, sameLog, installBlock_disk, source, Writes.apply_update_covered]
      · exact rel.recoverable b home
      · exact ⟨_, getElem_mem _, congrArg Prod.fst write.symm⟩
    · intro b flagged
      exact settled b ((installBlock_dirtyAt g s tail b).mp flagged).2
    · rw [quiet.lh, sameCount]; exact count
    · rw [quiet.lh, sameBlock]; exact block
    · intro b home
      have before := pending b home
      rw [drop_eq_getElem_cons bound, ← write, Writes.apply_cons] at before
      rw [sameLog, installBlock_disk, source]
      exact before
  · rename_i all
    refine related_boot rel.ops rel.clean rel.headerOk rel.recoverable commit unlocked alone
      durable settled ?_
    intro b home
    have before := pending b home
    rwa [drop_eq_nil_of_le (by
      simp only [logged, length_map, length_range]; omega)] at before

theorem boot_clear (here : s.pc .boot = some .clear) : Related g (advance g s .boot .clear) a := by
  obtain ⟨commit, unlocked, alone, durable, settled, holds⟩ := rel.boot_phase here
  exact related_boot rel.ops.clear rel.clean rel.headerOk rel.recoverable commit unlocked alone
    durable settled ⟨rfl, holds⟩

theorem boot_erase (here : s.pc .boot = some .erase) : Related g (advance g s .boot .erase) a := by
  obtain ⟨commit, unlocked, alone, durable, settled, cleared, holds⟩ := rel.boot_phase here
  have quiet := quiet_writeHead g s
  have empty : headCount g (writeHead g s).disk = 0 := by
    rw [headCount, writeHead_disk, update_self]
    exact getWord_putHeader_empty _ _ cleared
  refine related_boot (rel.ops.of_quiet quiet) (clean_writeHead rel.clean)
    (HeaderOk.of_empty empty) ?_ (by rw [quiet.pc]; exact commit)
    (by rw [quiet.committing]; exact unlocked) (by rw [quiet.active]; exact alone) durable ?_
    ⟨by rw [quiet.lh]; exact cleared, empty⟩
  · intro b home
    rw [redo_of_empty empty, writeHead_disk, update_of_ne home.ne_header, holds b home,
      Store.committed_of_all durable]
  · intro b flagged
    exact settled b ((writeHead_dirtyAt g s b).mp flagged).2

theorem boot_finish (here : s.pc .boot = some .finish) :
    Related g (advance g s .boot .finish) a := by
  obtain ⟨commit, unlocked, alone, durable, settled, cleared, empty⟩ := rel.boot_phase here
  have same : advance g s .boot .finish = s.setPc .boot none := by
    simp [advance, Sys.setPc]
  rw [same]
  refine ⟨rel.ops.setPc (by decide) _, rel.clean, rel.headerOk, rel.recoverable, ?_⟩
  refine phase_idle (by simp) commit unlocked ⟨empty, ?_, ?_, ?_⟩
  · intro b home
    rw [Sys.setPc_view, rel.clean.view_eq_disk (settled b), rel.disk_of_empty empty home,
      Store.committed_of_all durable]
  · intro b
    simp [settled b, cleared]
  · simp [cleared]

theorem related_step_boot {pc : Pc} (here : s.pc .boot = some pc) :
    Related g (advance g s .boot pc) a := by
  cases pc with
  | readHead => exact boot_readHead rel here
  | entry => exact (rel.boot_phase here).2.2.2.2.2.elim
  | writeLog tail => exact (rel.boot_phase here).2.2.2.2.2.elim
  | writeHead => exact (rel.boot_phase here).2.2.2.2.2.elim
  | install tail => exact boot_install rel here
  | clear => exact boot_clear rel here
  | erase => exact boot_erase rel here
  | finish => exact boot_finish rel here

end

end Xv6.Log
