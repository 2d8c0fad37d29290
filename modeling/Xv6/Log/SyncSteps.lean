import Xv6.Log.Sync

/- Every orderly step keeps the invariant, so `sys_sync` breaks nothing in an orderly run. -/
namespace Xv6.Log

open Function Bytes List

variable {g : Layout} {s t : Sys} {tail p : Nat}

theorem Entries.view_log (entries : Entries g s) {i : Nat} (inside : i < s.lh.n) :
    s.view (g.start + i + 1) = s.disk (g.start + i + 1) := by
  refine entries.clean.view_eq_disk fun flagged => ?_
  have fits := entries.fit
  exact (entries.dirtyHome _ flagged).ne_logBlock (i := i) (by omega) rfl

theorem Unseen.keeps (unseen : Unseen s t) : Keeps g s t := by
  obtain ⟨quiet, disk, clean, view, dirty⟩ := unseen
  refine ⟨quiet, clean, fun b => (dirty b).mp, fun b _ => view b, fun i _ done => ?_,
      fun i _ done => ?_⟩
  · unfold CopiedAt
    rw [disk, quiet.lh, view]
    exact done
  · unfold InstalledAt
    rw [disk, quiet.lh, view]
    exact done

section

variable (entries : Entries g s)
include entries

theorem keeps_writeLogBlock (inside : tail < s.lh.n) :
    Keeps g s (writeLogBlock g s tail) ∧ CopiedAt g (writeLogBlock g s tail) tail := by
  have fits := entries.fit
  have quiet := quiet_writeLogBlock g s tail
  have view : ∀ b, g.home b → (writeLogBlock g s tail).view b = s.view b := by
    intro b home
    rw [writeLogBlock_view, if_neg (home.ne_logBlock (by omega)).symm]
  refine ⟨⟨quiet, clean_writeLogBlock entries.clean tail,
    fun b flagged => ((writeLogBlock_dirtyAt g s tail b).mp flagged).2, view, ?_, ?_⟩, ?_⟩
  · intro i bound done
    unfold CopiedAt
    rw [quiet.lh, view _ (entries.home i bound), writeLogBlock_disk]
    by_cases same : i = tail
    · subst same
      rw [update_self]
    · rw [update_of_ne (by omega)]
      exact done
  · intro i bound done
    have home := entries.home i bound
    unfold InstalledAt
    rw [quiet.lh, view _ home, writeLogBlock_disk, update_of_ne (home.ne_logBlock (by omega)).symm]
    exact done
  · unfold CopiedAt
    rw [quiet.lh, view _ (entries.home tail inside), writeLogBlock_disk, update_self]

theorem keeps_installBlock (inside : tail < s.lh.n) (copied : CopiedAt g s tail) :
    Keeps g s (installBlock g s tail) ∧ InstalledAt (installBlock g s tail) tail := by
  have fits := entries.fit
  have quiet := quiet_installBlock g s tail
  have target := entries.home tail inside
  -- the log block that is copied back still holds what the cache shows
  have source : s.view (g.start + tail + 1) = s.view (s.lh.block tail) := by
    rw [entries.view_log inside]
    exact copied
  have view : ∀ b, (installBlock g s tail).view b = s.view b := by
    intro b
    rw [installBlock_view]
    split
    · rename_i same
      rw [same, source]
    · rfl
  have home : ∀ i < s.lh.n, InstalledAt s i ∨ s.lh.block i = s.lh.block tail →
      InstalledAt (installBlock g s tail) i := by
    intro i bound done
    unfold InstalledAt
    rw [quiet.lh, view, installBlock_disk]
    by_cases same : s.lh.block i = s.lh.block tail
    · rw [same, update_self, source]
    · rw [update_of_ne same]
      exact done.resolve_right same
  refine ⟨⟨quiet, clean_installBlock entries.clean tail,
    fun b flagged => ((installBlock_dirtyAt g s tail b).mp flagged).2, fun b _ => view b, ?_,
    fun i bound done => home i bound (.inl done)⟩, home tail inside (.inr rfl)⟩
  intro i bound done
  unfold CopiedAt
  rw [quiet.lh, view, installBlock_disk, update_of_ne (target.ne_logBlock (by omega))]
  exact done

theorem keeps_writeHead : Keeps g s (writeHead g s) := by
  have quiet := quiet_writeHead g s
  have view : ∀ b, b ≠ g.start → (writeHead g s).view b = s.view b := by
    intro b apart
    rw [writeHead_view, if_neg apart]
  refine ⟨quiet, clean_writeHead entries.clean,
    fun b flagged => ((writeHead_dirtyAt g s b).mp flagged).2, fun b home => view b home.ne_header,
    ?_, ?_⟩
  · intro i bound done
    unfold CopiedAt
    rw [quiet.lh, view _ (entries.home i bound).ne_header, writeHead_disk, update_of_ne (by omega)]
    exact done
  · intro i bound done
    have apart := (entries.home i bound).ne_header
    unfold InstalledAt
    rw [quiet.lh, view _ apart, writeHead_disk, update_of_ne apart]
    exact done

/-- A step of `commit` does its part. -/
theorem keeps_written {pc : Pc} (ok : AgentOk g s pc) :
    Keeps g s (written g s pc) ∧ AgentOk g (written g s pc) (nextPc s pc) := by
  have same := Keeps.refl (g := g) entries.clean
  cases pc with
  | writeLog tail =>
    simp only [written, nextPc]
    split
    · rename_i inside
      obtain ⟨keeps, last⟩ := keeps_writeLogBlock entries inside
      refine ⟨keeps, fun i bound before => ?_⟩
      rcases Nat.lt_succ_iff_lt_or_eq.mp before with earlier | rfl
      · exact keeps.agentOk ok i bound earlier
      · exact last
    · exact ⟨same, fun i bound => ok i bound (by omega)⟩
  | writeHead =>
    have keeps := keeps_writeHead entries
    exact ⟨keeps, keeps.agentOk ok, fun i _ before => absurd before (Nat.not_lt_zero i)⟩
  | install tail =>
    simp only [written, nextPc]
    split
    · rename_i inside
      obtain ⟨keeps, last⟩ := keeps_installBlock entries inside (ok.1 tail inside)
      have after := keeps.agentOk ok
      refine ⟨keeps, after.1, fun i bound before => ?_⟩
      rcases Nat.lt_succ_iff_lt_or_eq.mp before with earlier | rfl
      · exact after.2 i bound earlier
      · exact last
    · exact ⟨same, fun i bound => ok.2 i bound (by omega)⟩
  | entry =>
    simp only [written, nextPc]
    split
    · exact ⟨same, fun i _ before => absurd before (Nat.not_lt_zero i)⟩
    · exact ⟨same, trivial⟩
  | erase => exact ⟨keeps_writeHead entries, trivial⟩
  | readHead | clear | finish => exact ⟨same, ok⟩

end

theorem AgentOk.of_empty {pc : Pc} (empty : t.lh.n = 0) (ok : AgentOk g s pc) : AgentOk g t pc := by
  cases pc <;> simp_all [AgentOk]

section

variable (inv : SyncInv g s)
include inv

theorem SyncInv.clear : SyncInv g { s with lh := { s.lh with n := 0 } } :=
  ⟨inv.noBoot, inv.clean, inv.nodup, inv.counted, inv.pending, by simp, g.pos,
      Nat.zero_le _, inv.fresh,
    inv.committing, inv.syncing, inv.dirtyHome, inv.view,
    fun agent pc here => (inv.agents agent pc here).of_empty rfl⟩

theorem SyncInv.leave (agent : Agent) : SyncInv g (advance g s agent .finish) := by
  have before : ∀ other pc, (advance g s agent .finish).pc other = some pc →
      other ≠ agent ∧ s.pc other = some pc := by
    intro other pc there
    rcases Sys.setPc_eq_some _ _ _ |>.mp there with ⟨_, none⟩ | known
    · cases none
    · exact known
  refine ⟨?_, inv.clean, inv.nodup, inv.counted, inv.pending, inv.entriesHome, inv.entriesFit,
    inv.entriesSmall, inv.fresh, ?_, ?_, inv.dirtyHome, inv.view, ?_⟩
  · cases there : (advance g s agent .finish).pc .boot with
    | none => rfl
    | some pc => exact (before _ _ there).2.symm.trans inv.noBoot
  · intro pc there
    obtain ⟨apart, known⟩ := before _ _ there
    obtain ⟨locked, alone⟩ := inv.committing pc known
    refine ⟨?_, alone⟩
    simp only [advance, Sys.setPc_committing, if_neg apart.symm, locked]
  · exact fun pc there => inv.syncing pc (before _ _ there).2
  · exact fun other pc there => inv.agents other pc (before _ _ there).2

theorem syncInv_advance {agent : Agent} {pc : Pc} (here : s.pc agent = some pc) :
    SyncInv g (advance g s agent pc) := by
  have ok := inv.agents agent pc here
  rcases advance_eq g s agent pc with rfl | rfl | rfl | same
  · exact ok.elim
  · exact inv.clear.goto here trivial
  · exact inv.leave agent
  · obtain ⟨keeps, next⟩ := keeps_written inv.entries ok
    rw [same]
    exact (keeps.inv inv).goto (by rw [keeps.quiet.pc]; exact here) next

theorem SyncInv.idle_of_active (member : p ∈ s.active) : s.pc .endOp = none := by
  cases here : s.pc .endOp with
  | none => rfl
  | some pc =>
    rw [(inv.committing pc here).2] at member
    cases member

theorem syncInv_beginOp (taken : beginOp s p = some t) : SyncInv g t := by
  obtain ⟨_, absent, unlocked, _, same⟩ := beginOp_eq_some taken
  rw [same]
  refine ⟨inv.noBoot, inv.clean, nodup_cons.mpr ⟨absent, inv.nodup⟩, ?_, ?_,
    inv.entriesHome, inv.entriesFit, inv.entriesSmall, ?_, ?_, ?_, inv.dirtyHome, ?_, inv.agents⟩
  · simp only [length_cons, inv.counted]
  · exact fun q b data held => (inv.pending q b data held).imp (mem_cons_of_mem _) id
  · exact fun q outside => inv.fresh q (fun member => outside (mem_cons_of_mem _ member))
  · intro pc here
    cases unlocked.symm.trans (inv.committing pc here).1
  · intro pc here q member
    rcases mem_cons.mp member with rfl | old
    · exact inv.fresh q absent
    · exact inv.syncing pc here q old
  · intro b home unexposed
    refine inv.view b home fun ⟨q, member, logged⟩ => unexposed ?_
    exact ⟨q, mem_cons_of_mem _ member, logged⟩

theorem syncInv_logCheck {b : Nat} {data : Block} (taken : logCheck g s p b data = some t) :
    SyncInv g t := by
  have pending := pending_logCheck inv.pending taken
  obtain ⟨_, _, _, _, _, same⟩ := logCheck_eq_some taken
  rw [same] at pending ⊢
  exact ⟨inv.noBoot, inv.clean, inv.nodup, inv.counted, pending, inv.entriesHome, inv.entriesFit,
    inv.entriesSmall, inv.fresh, inv.committing, inv.syncing, inv.dirtyHome, inv.view, inv.agents⟩

theorem syncInv_logAppend (orderly : Orderly g s (.logAppend p)) (taken : logAppend s p = some t) :
    SyncInv g t := by
  cases held : s.pending p with
  | none => simp [logAppend, held] at taken
  | some pair =>
    obtain ⟨b, data⟩ := pair
    obtain ⟨member, home⟩ := inv.pending p b data held
    have alone := inv.idle_of_active member
    obtain ⟨entries, fits, small⟩ := recordBlock_within home inv.entriesHome inv.entriesFit
      inv.entriesSmall (orderly.2 _ held)
    simp only [logAppend, held, Option.some.injEq] at taken
    subst taken
    refine ⟨inv.noBoot, clean_pin inv.clean _ _ _ _ _, inv.nodup, inv.counted, ?_, entries, fits,
      small, ?_, ?_, ?_, ?_, ?_, ?_⟩
    · exact pending_erased inv.pending
    · intro q outside
      have apart : q ≠ p := fun same => outside (same ▸ member)
      simp only [update_of_ne apart]
      exact inv.fresh q outside
    · intro pc here
      exact absurd (alone.symm.trans here) (by simp)
    · intro pc here
      exact absurd (orderly.1.symm.trans here) (by simp)
    · intro c flagged
      by_cases same : c = b
      · rw [same]; exact home
      · exact inv.dirtyHome c (by simpa [Sys.DirtyAt, same] using flagged)
    · intro c homeC unexposed
      have apart : c ≠ b := by
        rintro rfl
        exact unexposed ⟨p, member, by simp⟩
      have old : ¬ s.Exposed c := by
        rintro ⟨q, active, logged⟩
        refine unexposed ⟨q, active, ?_⟩
        by_cases same : q = p
        · subst same
          simp [logged]
        · simp [same, logged]
      rw [← inv.view c homeC old]
      simp [Sys.view, apart]
    · intro agent pc here
      cases agent with
      | endOp => exact absurd (alone.symm.trans here) (by simp)
      | sync => exact absurd (orderly.1.symm.trans here) (by simp)
      | boot => exact absurd (inv.noBoot.symm.trans here) (by simp)

theorem syncInv_ended (member : p ∈ s.active) (free : s.pending p = none) :
    SyncInv g (ended s p) := by
  have pending := pending_ended free inv.pending
  refine ⟨inv.noBoot, inv.clean, inv.nodup.erase p, ?_, pending, inv.entriesHome,
    inv.entriesFit, inv.entriesSmall, ?_, ?_, ?_, inv.dirtyHome, ?_, inv.agents⟩
  · show s.outstanding - 1 = (s.active.erase p).length
    rw [length_erase_of_mem member, inv.counted]
  · refine (forall_update_iff s.wrote fun q list => q ∉ s.active.erase p → list = []).mpr
      ⟨fun _ => rfl, fun q apart outside => inv.fresh q fun active => outside ?_⟩
    exact (mem_erase_of_ne apart).mpr active
  · intro pc here
    cases (inv.idle_of_active member).symm.trans here
  · intro pc here q active
    have apart : q ≠ p := fun same => inv.nodup.not_mem_erase (same ▸ active)
    show update s.wrote p [] q = []
    rw [update_of_ne apart]
    exact inv.syncing pc here q (mem_of_mem_erase active)
  intro b home unexposed
  show s.view b = if b ∈ s.wrote p then s.view b else s.settled b
  split
  · rfl
  rename_i other
  refine inv.view b home fun ⟨q, active, logged⟩ => unexposed ?_
  have apart : q ≠ p := fun same => other (same ▸ logged)
  refine ⟨q, (mem_erase_of_ne apart).mpr active, ?_⟩
  show b ∈ update s.wrote p [] q
  rwa [update_of_ne apart]

theorem syncInv_endOp (taken : endOp g s p = some t) : SyncInv g t := by
  obtain ⟨member, free, _, commits⟩ := endOp_eq_some taken
  have after := syncInv_ended inv member free
  rcases commits with ⟨last, _, same⟩ | ⟨_, same⟩
  · -- the caller is the last operation and starts to commit
    rw [same]
    have alone : (ended s p).active = [] := eq_nil_of_length_eq_zero (after.counted.symm.trans last)
    refine ⟨after.noBoot, after.clean, after.nodup, after.counted, after.pending,
      after.entriesHome, after.entriesFit, after.entriesSmall, after.fresh,
      fun pc _ => ⟨rfl, alone⟩, after.syncing, after.dirtyHome, after.view, ?_⟩
    intro agent pc here
    rcases Sys.setPc_eq_some _ _ _ |>.mp here with ⟨_, start⟩ | ⟨_, before⟩
    · cases start
      trivial
    · exact after.agents agent pc before
  · rw [same]
    exact after

theorem syncInv_sysSync (orderly : Orderly g s .sysSync) (taken : sysSync s = some t) :
    SyncInv g t := by
  obtain ⟨_, _, same⟩ := sysSync_eq_some taken
  rw [same]
  refine ⟨inv.noBoot, inv.clean, inv.nodup, inv.counted, inv.pending, inv.entriesHome,
    inv.entriesFit, inv.entriesSmall, inv.fresh, inv.committing, fun _ _ => orderly,
    inv.dirtyHome, inv.view, ?_⟩
  intro agent pc here
  rcases Sys.setPc_eq_some _ _ _ |>.mp here with ⟨_, start⟩ | ⟨_, before⟩
  · cases start
    trivial
  · exact inv.agents agent pc before

end

theorem syncInv_step {event : Event} (inv : SyncInv g s) (orderly : Orderly g s event)
    (taken : step g s event = some t) : SyncInv g t := by
  cases event with
  | beginOp p => exact syncInv_beginOp inv taken
  | logCheck p b data => exact syncInv_logCheck inv taken
  | logAppend p => exact syncInv_logAppend inv orderly taken
  | endOp p => exact syncInv_endOp inv taken
  | sysSync => exact syncInv_sysSync inv orderly taken
  | step agent =>
    obtain ⟨pc, here, rfl⟩ := Option.map_eq_some_iff.mp taken
    exact syncInv_advance inv here
  | crash => exact orderly.elim
  | bread b =>
    cases taken
    exact (unseen_bread inv.clean b).keeps.inv inv
  | recycle b => exact (unseen_recycle inv.clean taken).keeps.inv inv

theorem syncInv_started (disk : Nat → Block) : SyncInv g (started disk) := by
  have stopped : ∀ agent pc, (started disk).pc agent ≠ some pc := by
    intro agent pc
    cases agent <;> simp [started, powerOn]
  refine ⟨by simp [started], by simp [started, powerOn, Sys.Clean, Sys.setPc], nodup_nil, rfl,
    by simp [started, powerOn], by simp [started, powerOn], g.pos, Nat.zero_le _, fun _ _ => rfl,
    fun pc here => absurd here (stopped _ pc), fun pc here => absurd here (stopped _ pc), ?_,
    fun _ _ _ => rfl, fun agent pc here => absurd here (stopped agent pc)⟩
  rintro b ⟨buf, cached, _⟩
  cases cached

/-- In an orderly run every header write and every clearing of the log is safe. -/
theorem sync_safe (disk : Nat → Block) (events : List Event)
    (orderly : Run.Steps (step g) (Orderly g) (started disk) events) :
    Run.Steps (step g) SyncSafe (started disk) events :=
  Run.steps_of_invariant (SyncInv g) (fun _ _ _ => syncInv_step)
    (fun _ event inv _ => inv.safe event) (syncInv_started disk) orderly

theorem sync_safe_after_op :
    let events := [.beginOp 0, .logCheck 0 100 (fill 7), .logAppend 0, .endOp 0, .sysSync,
      .beginOp 1] ++ List.replicate 8 (.step .sync)
    Run.Steps (step fsLog) (Orderly fsLog) (started fun _ => zero) events ∧
      Run.Steps (step fsLog) SyncSafe (started fun _ => zero) events :=
  ⟨by decide, sync_safe _ _ (by decide)⟩

/-- An operation has logged block 100 and goes on; meanwhile `sys_sync` copies the log. -/
def syncInsideOp : List Event :=
  [.beginOp 0, .logCheck 0 100 (fill 7), .logAppend 0, .sysSync] ++
    List.replicate 3 (.step .sync)

/-- `sys_sync` has written the header for block 100 when another operation logs block 101 and
ends; then `sys_sync` installs both. -/
def opInsideSync : List Event :=
  [.beginOp 0, .logCheck 0 100 (fill 7), .logAppend 0, .endOp 0, .sysSync] ++
    List.replicate 4 (.step .sync) ++
    [.beginOp 1, .logCheck 1 101 (fill 7), .logAppend 1, .endOp 1] ++
    List.replicate 3 (.step .sync)

/-- The header that `sys_sync` writes covers an update of an active operation, and its clearing
drops a block of a finished operation that was never written home. -/
theorem sync_breaks_log :
    (∃ s t, Run.exec (step fsLog) (started fun _ => zero) syncInsideOp = some s ∧
      ¬ SyncSafe s (.step .sync) ∧ step fsLog s (.step .sync) = some t ∧ t.active = [0] ∧
      headCount fsLog t.disk = 1 ∧ headBlock fsLog t.disk 0 = 100 ∧
      t.disk (fsLog.start + 1) 0 = 7) ∧
    (∃ s t, Run.exec (step fsLog) (started fun _ => zero) opInsideSync = some s ∧
      ¬ SyncSafe s (.step .sync) ∧ step fsLog s (.step .sync) = some t ∧ t.active = [] ∧
      t.lh.n = 0 ∧ s.lh.block 1 = 101 ∧ s.settled 101 0 = 7 ∧ t.disk 101 0 = 0 ∧
      t.view 101 0 = 0) := by
  refine ⟨⟨_, _, rfl, ?_, rfl, by decide, by decide, by decide, by decide⟩,
    ⟨_, _, rfl, ?_, rfl, by decide, by decide, by decide, by decide, by decide, by decide⟩⟩
  · intro safe
    exact safe.1 (.inl (by decide)) 0 (by decide) ⟨0, by decide, by decide⟩
  · intro safe
    have installed := congrFun (safe.2 (by decide) 1 (by decide)).2 0
    exact absurd installed (by decide)

end Xv6.Log
