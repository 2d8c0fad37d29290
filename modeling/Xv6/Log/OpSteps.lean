import Xv6.Log.BootSteps

/- The steps of file system operations, of a crash and of the buffer cache. -/
namespace Xv6.Log

open Bytes GroupStore List

variable {g : Layout} {s : Sys} {a : Store Nat Block} {p b : Nat} {t : Sys}

/-- An operation is active only outside `commit` and after boot. -/
theorem Related.idle_of_active (rel : Related g s a) (member : p ∈ s.active) :
    s.pc .boot = none ∧ s.pc .endOp = none := by
  constructor
  · cases boot : s.pc .boot with
    | none => rfl
    | some pc =>
      rw [(rel.boot_phase boot).2.2.1] at member
      cases member
  · cases commit : s.pc .endOp with
    | none => rfl
    | some pc =>
      rw [(rel.commit_phase commit).2.2.1] at member
      cases member

theorem related_beginOp (rel : Related g s a) (taken : beginOp s p = some t) :
    ∃ b, Run.exec Store.step a (seen s (.beginOp p)) = some b ∧ Related g t b := by
  obtain ⟨boot, fresh, unlocked, _, same⟩ := beginOp_eq_some taken
  have commit : s.pc .endOp = none := by
    cases commit : s.pc .endOp with
    | none => rfl
    | some pc => cases unlocked.symm.trans (rel.commit_phase commit).2.1
  obtain ⟨_, holds⟩ := rel.idle_phase boot commit
  have absent : p ∉ a.active := by rw [rel.ops.active]; exact fresh
  rw [same]
  refine ⟨{ a with active := p :: a.active }, ?_,
      ⟨?_, rel.clean, rel.headerOk, rel.recoverable, ?_⟩⟩
  · simp [seen, Run.exec_cons, Store.step, absent]
  · refine ⟨rel.ops.noSync, ?_, ?_, rel.ops.durable, ?_, rel.ops.entriesHome⟩
    · dsimp only; rw [rel.ops.active]
    · simp only [length_cons, rel.ops.outstanding]
    · exact fun q b data held => (rel.ops.pending q b data held).imp (mem_cons_of_mem _) id
  · exact phase_idle boot commit unlocked
      ⟨holds.headEmpty, holds.view, holds.dirty, holds.distinct⟩

theorem related_logCheck (rel : Related g s a) {data : Block}
    (taken : logCheck g s p b data = some t) : Related g t a := by
  have pending := pending_logCheck rel.ops.pending taken
  obtain ⟨member, _, _, _, _, same⟩ := logCheck_eq_some taken
  obtain ⟨boot, commit⟩ := rel.idle_of_active member
  obtain ⟨unlocked, holds⟩ := rel.idle_phase boot commit
  rw [same] at pending ⊢
  exact ⟨⟨rel.ops.noSync, rel.ops.active, rel.ops.outstanding, rel.ops.durable, pending,
    rel.ops.entriesHome⟩, rel.clean, rel.headerOk, rel.recoverable,
    phase_idle boot commit unlocked ⟨holds.headEmpty, holds.view, holds.dirty, holds.distinct⟩⟩

/-- The operations after `log_write`: `held` is the block it has recorded. -/
theorem ops_logAppend (ops : Ops g s a) {data : Block} (held : s.pending p = some (b, data))
    (taken : logAppend s p = some t) : Ops g t { a with history := a.history ++ [(b, data)] } := by
  simp only [logAppend, held, Option.some.injEq] at taken
  subst taken
  refine ⟨ops.noSync, ops.active, ops.outstanding, ?_, ?_, ?_⟩
  · have := ops.durable
    simp only [length_append]
    omega
  · exact pending_erased ops.pending
  · exact recordBlock_home (ops.pending p b data held).2 ops.entriesHome

theorem related_logAppend (rel : Related g s a) (taken : logAppend s p = some t) :
    ∃ b, Run.exec Store.step a (seen s (.logAppend p)) = some b ∧ Related g t b := by
  cases held : s.pending p with
  | none => simp [logAppend, held] at taken
  | some pair =>
    obtain ⟨b, data⟩ := pair
    have member := (rel.ops.pending p b data held).1
    have ops := ops_logAppend rel.ops held taken
    obtain ⟨boot, commit⟩ := rel.idle_of_active member
    obtain ⟨unlocked, holds⟩ := rel.idle_phase boot commit
    have known : p ∈ a.active := by rw [rel.ops.active]; exact member
    refine ⟨{ a with history := a.history ++ [(b, data)] }, ?_, ?_⟩
    · simp [seen, held, Run.exec_cons, Store.step, known]
    simp only [logAppend, held, Option.some.injEq] at taken
    subst taken
    refine ⟨ops, clean_pin rel.clean _ _ _ _ _, rel.headerOk, ?_,
      phase_idle boot commit unlocked ⟨?_, ?_, ?_, distinct_recordBlock holds.distinct⟩⟩
    · intro c home
      rw [Store.committed_write rel.ops.durable]
      exact rel.recoverable c home
    · exact holds.headEmpty
    · intro c home
      rw [Store.current_write]
      by_cases same : c = b
      · subst same
        simp [Sys.view]
      · rw [Function.update_of_ne same, ← holds.view c home]
        simp [Sys.view, same]
    · intro c
      rw [mem_recordBlock, ← holds.dirty]
      by_cases same : c = b
      · simp [Sys.DirtyAt, same]
      · simp [Sys.DirtyAt, same]

theorem related_endOp (rel : Related g s a) (taken : endOp g s p = some t) :
    ∃ b, Run.exec Store.step a (seen s (.endOp p)) = some b ∧ Related g t b := by
  obtain ⟨member, free, unlocked, commits⟩ := endOp_eq_some taken
  obtain ⟨boot, commit⟩ := rel.idle_of_active member
  obtain ⟨_, holds⟩ := rel.idle_phase boot commit
  have known : p ∈ a.active := by rw [rel.ops.active]; exact member
  have pending := pending_ended free rel.ops.pending
  have ops : ∀ committing, Ops g { ended s p with committing := committing }
      { a with active := a.active.erase p } := by
    intro committing
    refine ⟨rel.ops.noSync, ?_, ?_, rel.ops.durable, pending, rel.ops.entriesHome⟩
    · show a.active.erase p = s.active.erase p
      rw [rel.ops.active]
    · show s.outstanding - 1 = (s.active.erase p).length
      rw [length_erase_of_mem member, rel.ops.outstanding]
  refine ⟨{ a with active := a.active.erase p }, ?_, ?_⟩
  · simp [seen, Run.exec_cons, Store.step, known]
  rcases commits with ⟨last, _, same⟩ | ⟨_, same⟩
  · rw [same]
    refine ⟨(ops true).setPc (by decide) _, rel.clean, rel.headerOk, rel.recoverable,
      phase_commit boot (by simp : _ = some Pc.entry) rfl ?_
        ⟨holds.headEmpty, holds.view, holds.dirty, holds.distinct⟩⟩
    exact eq_nil_of_length_eq_zero ((ops true).outstanding.symm.trans last)
  · rw [same]
    exact ⟨ops s.committing, rel.clean, rel.headerOk, rel.recoverable,
      phase_idle boot commit unlocked ⟨holds.headEmpty, holds.view, holds.dirty, holds.distinct⟩⟩

/-- A crash at any point leaves a disk from which recovery starts in the relation. -/
theorem related_crash (rel : Related g s a) :
    Related g (crash s) { a with history := a.history.take a.durable, active := [] } := by
  have all : (a.history.take a.durable).length = a.durable := by
    rw [length_take]
    exact Nat.min_eq_left rel.ops.durable
  have absent : ∀ b, ¬ (crash s).DirtyAt b := by
    rintro b ⟨buf, cached, _⟩
    cases cached
  refine ⟨⟨rfl, rfl, rfl, by dsimp only; omega, ?_, ?_⟩, ?_, rel.headerOk, ?_,
    phase_boot rfl rfl rfl rfl all.symm absent trivial⟩
  · intro p b data held
    cases held
  · intro i inside
    cases inside
  · intro b buf cached
    cases cached
  · intro b home
    rw [Store.committed_crash]
    exact rel.recoverable b home

/-- The relation reads the cache only through the content and the dirty flag of each block. -/
theorem Phase.unseen (phase : Phase g s a) (unseen : Unseen s t) : Phase g t a := by
  obtain ⟨quiet, disk, _, view, dirty⟩ := unseen
  have gathering : Gathering g s a → Gathering g t a := by
    intro holds
    refine ⟨by rw [disk]; exact holds.headEmpty, fun b home => (view b).trans (holds.view b home),
      fun b => ?_, by rw [quiet.lh]; exact holds.distinct⟩
    rw [quiet.lh, dirty]
    exact holds.dirty b
  have installing : ∀ tail, Installing g s a tail → Installing g t a tail := by
    intro tail holds
    refine ⟨holds.durable, ?_, ?_, ?_, fun b home => (view b).trans (holds.view b home), ?_⟩
    · rw [disk, quiet.lh]; exact holds.count
    · rw [disk, quiet.lh]; exact holds.block
    · unfold Copied; rw [disk, quiet.lh]; exact holds.copied
    · intro b flagged
      rw [quiet.lh]
      exact holds.dirty b ((dirty b).mp flagged)
  have copied : ∀ count, Copied g s a count → Copied g t a count := by
    intro count holds
    unfold Copied
    rw [disk, quiet.lh]
    exact holds
  unfold Phase at phase ⊢
  rw [quiet.pc, quiet.committing, quiet.active]
  split
  · rename_i boot commit
    rw [boot, commit] at phase
    exact ⟨phase.1, gathering phase.2⟩
  · rename_i pc boot commit
    rw [boot, commit] at phase
    refine ⟨phase.1, phase.2.1, ?_⟩
    have holds := phase.2.2
    cases pc with
    | readHead => exact holds
    | entry => exact gathering holds
    | writeLog tail =>
      refine ⟨gathering holds.1, ?_, ?_, copied _ holds.2.2.2⟩
      · rw [quiet.lh]; exact holds.2.1
      · rw [quiet.lh]; exact holds.2.2.1
    | writeHead => exact ⟨gathering holds.1, by rw [quiet.lh]; exact copied _ holds.2⟩
    | install tail => exact installing tail holds
    | clear => exact (by rw [quiet.lh]; exact installing _ holds : Installing g t a t.lh.n)
    | erase =>
      exact ⟨holds.durable, by rw [quiet.lh]; exact holds.empty,
        fun b home => (view b).trans (holds.view b home),
        fun b flagged => holds.settled b ((dirty b).mp flagged)⟩
    | finish => exact gathering holds
  · rename_i pc boot commit
    rw [boot, commit] at phase
    refine ⟨phase.1, phase.2.1, phase.2.2.1, fun b flagged =>
      phase.2.2.2.1 b ((dirty b).mp flagged), ?_⟩
    have holds := phase.2.2.2.2
    cases pc <;> simp only [BootPhase, disk, quiet.lh] at holds ⊢ <;> exact holds
  · rename_i boot commit
    rw [boot, commit] at phase
    exact phase

theorem related_unseen (rel : Related g s a) (unseen : Unseen s t) : Related g t a :=
  ⟨rel.ops.of_quiet unseen.quiet, unseen.clean, by rw [unseen.disk]; exact rel.headerOk,
    by rw [unseen.disk]; exact rel.recoverable, rel.phase.unseen unseen⟩

/-- Every step that finds its buffers is matched by the abstract store. -/
theorem related_step {event : Event} (room : NBUF ≤ g.size) (rel : Related g s a)
    (unsynced : Unsynced event) (buffered : Buffered g s event) (taken : step g s event = some t) :
    ∃ b, Run.exec Store.step a (seen s event) = some b ∧ Related g t b := by
  cases event with
  | beginOp p => exact related_beginOp rel taken
  | logCheck p b data => exact ⟨a, rfl, related_logCheck rel taken⟩
  | logAppend p => exact related_logAppend rel taken
  | endOp p => exact related_endOp rel taken
  | sysSync => exact unsynced.elim
  | step agent =>
    obtain ⟨pc, here, rfl⟩ := Option.map_eq_some_iff.mp taken
    cases agent with
    | endOp => exact related_step_endOp rel here room buffered
    | sync =>
      rw [rel.ops.noSync] at here
      cases here
    | boot => exact ⟨a, rfl, related_step_boot rel here⟩
  | crash =>
    cases taken
    exact ⟨_, rfl, related_crash rel⟩
  | bread b =>
    cases taken
    exact ⟨a, rfl, related_unseen rel (unseen_bread rel.clean b)⟩
  | recycle b => exact ⟨a, rfl, related_unseen rel (unseen_recycle rel.clean taken)⟩

end Xv6.Log
