import Xv6.Log.CrashAtomic
import Xv6.Log.SyncSteps

/- What `sys_sync` leaves on the disk when no operation is outstanding. Nothing here depends on the
room that `log_write` finds: every step writes the cache and the disk together. -/
namespace Xv6.Log

open Function Bytes GroupStore List

variable {g : Layout} {s t : Sys} {pc : Pc} {agent : Agent}

/-- The value of `sys_sync` after its `commit`. -/
def syncResult (s : Sys) : Int := if s.lh.n = 0 then 0 else -1

def sysGetLogNum (s : Sys) : Nat := s.lh.n

/-- The machine stays on, and no `log_write` gets the lock while `sys_sync` is in `commit`. -/
def Undisturbed (s : Sys) : Event → Prop
  | .logAppend _ => s.pc .sync = none
  | .crash => False
  | _ => True

instance (s : Sys) (event : Event) : Decidable (Undisturbed s event) := by
  rcases event <;> dsimp only [Undisturbed] <;> infer_instance

def Listed (lh : LogHeader) (b : Nat) : Prop := ∃ i < lh.n, lh.block i = b

/-- What a caller of `commit` has reached. What it installs is wrong if the log was too small, but
disk and cache are written together. -/
def Reached (s : Sys) : Pc → Prop
  | .readHead => False
  | .install tail => ∀ i < s.lh.n, i < tail → ¬ s.DirtyAt (s.lh.block i)
  | .clear => ∀ i < s.lh.n, ¬ s.DirtyAt (s.lh.block i)
  | .erase | .finish => s.lh.n = 0
  | _ => True

/-- The caller of `commit` will erase the header. -/
def Erases : Pc → Prop
  | .writeHead | .install _ | .clear | .erase => True
  | _ => False

/-- The header on disk is empty unless somebody is going to erase it. -/
def Headed (g : Layout) (s : Sys) : Prop :=
  headCount g s.disk = 0 ∨ ∃ agent pc, s.pc agent = some pc ∧ Erases pc

/-- What waits to be written is in the log, and an idle log is at most half full. -/
structure Kept (g : Layout) (s : Sys) : Prop where
  noBoot : s.pc .boot = none
  clean : s.Clean
  counted : s.outstanding = s.active.length
  pending : ∀ p b data, s.pending p = some (b, data) → p ∈ s.active ∧ g.home b
  entriesHome : ∀ i < s.lh.n, g.home (s.lh.block i)
  dirty : ∀ b, s.DirtyAt b → Listed s.lh b
  committing : ∀ pc, s.pc .endOp = some pc → s.committing = true ∧ s.active = []
  reached : ∀ agent pc, s.pc agent = some pc → Reached s pc
  small : s.active = [] → s.pc .endOp = none → s.lh.n ≤ g.size / 2
  header : Headed g s

theorem Kept.entries (kept : Kept g s) (fit : s.lh.n + 1 ≤ g.size) : Entries g s := by
  refine ⟨kept.clean, kept.entriesHome, fit, fun b flagged => ?_⟩
  obtain ⟨i, inside, same⟩ := kept.dirty b flagged
  exact same ▸ kept.entriesHome i inside

/-- Nothing becomes dirty. -/
structure Settles (s t : Sys) : Prop where
  quiet : Quiet s t
  clean : t.Clean
  dirty : ∀ b, t.DirtyAt b → s.DirtyAt b

theorem settles_written (clean : s.Clean) (pc : Pc) : Settles s (written g s pc) := by
  have same : Settles s s := ⟨quiet_refl s, clean, fun _ flagged => flagged⟩
  cases pc with
  | writeLog tail =>
    simp only [written]
    split
    · exact ⟨quiet_writeLogBlock g s tail, clean_writeLogBlock clean tail,
        fun c flagged => ((writeLogBlock_dirtyAt g s tail c).mp flagged).2⟩
    · exact same
  | install tail =>
    simp only [written]
    split
    · exact ⟨quiet_installBlock g s tail, clean_installBlock clean tail,
        fun c flagged => ((installBlock_dirtyAt g s tail c).mp flagged).2⟩
    · exact same
  | writeHead | erase =>
    exact ⟨quiet_writeHead g s, clean_writeHead clean,
      fun c flagged => ((writeHead_dirtyAt g s c).mp flagged).2⟩
  | _ => exact same

theorem Settles.reached (settles : Settles s t) (reached : Reached s pc) : Reached t pc := by
  have lh := settles.quiet.lh
  have kept : ∀ b, ¬ s.DirtyAt b → ¬ t.DirtyAt b := fun b => mt (settles.dirty b)
  cases pc with
  | install tail =>
    unfold Reached
    rw [lh]
    exact fun i inside before => kept _ (reached i inside before)
  | clear =>
    unfold Reached
    rw [lh]
    exact fun i inside => kept _ (reached i inside)
  | erase | finish => exact (congrArg LogHeader.n lh).trans reached
  | readHead => exact reached
  | _ => trivial

theorem reached_written (clean : s.Clean) (reached : Reached s pc) :
    Reached (written g s pc) (nextPc s pc) := by
  have settles := settles_written (g := g) clean pc
  cases pc with
  | entry =>
    simp only [written, nextPc]
    split
    · trivial
    · exact Nat.eq_zero_of_not_pos ‹_›
  | writeLog tail =>
    simp only [nextPc]
    split
    all_goals trivial
  | writeHead => exact fun i _ before => absurd before (Nat.not_lt_zero i)
  | install tail =>
    have before := settles.reached reached
    simp only [nextPc]
    split
    · rename_i inside
      intro i bound earlier
      rcases Nat.lt_succ_iff_lt_or_eq.mp earlier with earlier | rfl
      · exact before i bound earlier
      · simp [written, inside, (quiet_installBlock g s i).lh, installBlock_dirtyAt]
    · exact fun i bound => before i bound (by rw [settles.quiet.lh] at bound; omega)
  | erase => exact (settles.reached reached : Reached _ .erase)
  | readHead | clear | finish => exact reached

section

variable (kept : Kept g s)
include kept

theorem Kept.moves {u : Sys} {pcs : Agent → Option Pc} {locked : Bool} (settles : Settles s u)
    (runs : ∀ agent pc, pcs agent = some pc → (∃ old, s.pc agent = some old) ∧ Reached u pc)
    (locks : ∀ pc, pcs .endOp = some pc → locked = s.committing)
    (idle : pcs .endOp = none → s.pc .endOp = none ∨ u.lh.n = 0)
    (header : Headed g { u with pc := pcs }) :
    Kept g { u with pc := pcs, committing := locked } := by
  have quiet := settles.quiet
  refine ⟨?_, settles.clean, ?_, ?_, ?_, ?_, ?_, fun agent pc here => (runs agent pc here).2, ?_,
      header⟩
  · refine Option.eq_none_iff_forall_ne_some.mpr fun pc here => ?_
    obtain ⟨old, before⟩ := (runs _ _ here).1
    cases kept.noBoot.symm.trans before
  · dsimp only; rw [quiet.outstanding, quiet.active]; exact kept.counted
  · dsimp only; rw [quiet.pending, quiet.active]; exact kept.pending
  · dsimp only; rw [quiet.lh]; exact kept.entriesHome
  · dsimp only; rw [quiet.lh]; exact fun b flagged => kept.dirty b (settles.dirty b flagged)
  · intro pc here
    obtain ⟨old, before⟩ := (runs _ _ here).1
    dsimp only
    rw [locks pc here, quiet.active]
    exact kept.committing old before
  · intro alone none
    rcases idle none with before | empty
    · dsimp only at alone ⊢
      rw [quiet.active] at alone
      rw [quiet.lh]
      exact kept.small alone before
    · exact (show u.lh.n ≤ g.size / 2 by omega)

theorem Kept.unseen (unseen : Unseen s t) : Kept g t := by
  have settles : Settles s t := ⟨unseen.quiet, unseen.clean, fun b => (unseen.dirty b).mp⟩
  refine kept.moves settles (fun agent pc here => ?_) (fun _ _ => unseen.quiet.committing)
    (fun none => .inl ?_) ?_
  · rw [unseen.quiet.pc] at here
    exact ⟨⟨pc, here⟩, settles.reached (kept.reached agent pc here)⟩
  · rw [← unseen.quiet.pc]
    exact none
  · unfold Headed
    dsimp only
    rw [unseen.disk, unseen.quiet.pc]
    exact kept.header

theorem Kept.goto (settles : Settles s t) {old new : Pc} (here : s.pc agent = some old)
    (reached : Reached t new) (header : Headed g (t.setPc agent (some new))) :
    Kept g (t.setPc agent (some new)) := by
  refine kept.moves settles (fun other pc there => ?_) (fun _ _ => settles.quiet.committing)
    (fun none => .inl ?_) header
  · rcases Sys.setPc_eq_some _ _ _ |>.mp there with ⟨rfl, same⟩ | ⟨_, known⟩
    · cases same
      exact ⟨⟨old, here⟩, reached⟩
    · rw [settles.quiet.pc] at known
      exact ⟨⟨pc, known⟩, settles.reached (kept.reached other pc known)⟩
  · rw [settles.quiet.pc, update_apply] at none
    split at none
    · cases none
    · exact none

theorem Kept.leave (here : s.pc agent = some .finish) : Kept g (advance g s agent .finish) := by
  have before : ∀ other pc, update s.pc agent none other = some pc → other ≠ agent ∧
      s.pc other = some pc := by
    intro other pc there
    rcases s.setPc_eq_some _ _ |>.mp there with ⟨_, none⟩ | known
    · cases none
    · exact known
  refine kept.moves (u := s) ⟨quiet_refl s, kept.clean, fun _ flagged => flagged⟩
    (fun other pc there => ?_)
    (fun pc there => if_neg (before _ _ there).1.symm)
      (fun _ => .inr (kept.reached agent .finish here)) ?_
  · have known := (before _ _ there).2
    exact ⟨⟨pc, known⟩, kept.reached other pc known⟩
  · refine kept.header.imp id fun ⟨other, old, there, erases⟩ => ⟨other, old, ?_, erases⟩
    refine s.setPc_eq_some _ _ |>.mpr (.inr ⟨fun same => ?_, there⟩)
    rw [same, here] at there
    cases there
    exact erases

/-- The entries are written, and the log is emptied. -/
theorem Kept.clear (settled : ∀ i < s.lh.n, ¬ s.DirtyAt (s.lh.block i)) :
    Kept g { s with lh := { s.lh with n := 0 } } := by
  refine { kept with entriesHome := ?_, dirty := ?_, reached := ?_, small := ?_ }
  · exact fun i inside => absurd inside (Nat.not_lt_zero i)
  · intro b flagged
    obtain ⟨i, inside, same⟩ := kept.dirty b flagged
    exact absurd flagged (same ▸ settled i inside)
  · intro agent pc here
    have before := kept.reached agent pc here
    cases pc with
    | readHead => exact before
    | install | clear => exact fun i inside => absurd inside (Nat.not_lt_zero i)
    | erase | finish => rfl
    | _ => trivial
  · exact fun _ _ => Nat.zero_le _

/-- The header is written by somebody who erases it, or is empty after that. -/
theorem headed_written (here : s.pc agent = some pc) (reached : Reached s pc) :
    Headed g ((written g s pc).setPc agent (some (nextPc s pc))) := by
  have goes : ∀ {u : Sys} {next : Pc}, u.pc = s.pc → u.disk g.start = s.disk g.start →
      (Erases pc → Erases next) → Headed g (u.setPc agent (some next)) := by
    intro u next pcs disk promise
    rcases kept.header with empty | ⟨other, old, there, erases⟩
    · refine .inl ?_
      unfold headCount at empty ⊢
      rw [Sys.setPc_disk, disk, empty]
    by_cases same : other = agent
    · rw [same, here] at there
      cases there
      exact .inr ⟨agent, next, u.setPc_eq_some _ _ |>.mpr (.inl ⟨rfl, rfl⟩), promise erases⟩
    · rw [← pcs] at there
      exact .inr ⟨other, old, u.setPc_eq_some _ _ |>.mpr (.inr ⟨same, there⟩), erases⟩
  cases pc with
  | entry => exact goes rfl rfl False.elim
  | writeLog tail =>
    simp only [written, nextPc]
    split
    · refine goes (quiet_writeLogBlock g s tail).pc ?_ False.elim
      rw [writeLogBlock_disk, update_of_ne (by omega)]
    · exact goes rfl rfl False.elim
  | writeHead => exact .inr ⟨agent, .install 0, Sys.setPc_eq_some _ _ _ |>.mpr (.inl ⟨rfl, rfl⟩),
      trivial⟩
  | install tail =>
    simp only [written, nextPc]
    split
    · rename_i inside
      refine goes (quiet_installBlock g s tail).pc ?_ fun _ => trivial
      rw [installBlock_disk, update_of_ne (kept.entriesHome tail inside).ne_header.symm]
    · exact goes rfl rfl fun _ => trivial
  | erase =>
    refine .inl ?_
    show headCount g (writeHead g s).disk = 0
    have empty : s.lh.n = 0 := reached
    rw [headCount_writeHead g s (by omega), empty]
  | readHead | clear | finish => exact goes rfl rfl id

theorem kept_advance (here : s.pc agent = some pc) : Kept g (advance g s agent pc) := by
  have reached := kept.reached agent pc here
  rcases advance_eq g s agent pc with rfl | rfl | rfl | same
  · exact reached.elim
  · have cleared := kept.clear reached
    refine cleared.goto ⟨quiet_refl _, cleared.clean, fun _ flagged => flagged⟩ here rfl ?_
    exact .inr ⟨agent, .erase, Sys.setPc_eq_some _ _ _ |>.mpr (.inl ⟨rfl, rfl⟩), trivial⟩
  · exact kept.leave here
  · rw [same]
    exact kept.goto (settles_written kept.clean pc) here (reached_written kept.clean reached)
      (headed_written kept here reached)

theorem Kept.start (here : s.pc agent = none) :
    (∀ other pc, (s.setPc agent (some .entry)).pc other = some pc → Reached s pc) ∧
      Headed g (s.setPc agent (some .entry)) := by
  constructor
  · intro other pc there
    rcases s.setPc_eq_some _ _ |>.mp there with ⟨_, start⟩ | ⟨_, before⟩
    · cases start
      trivial
    · exact kept.reached other pc before
  · refine kept.header.imp id fun ⟨other, pc, there, erases⟩ => ⟨other, pc, ?_, erases⟩
    refine s.setPc_eq_some _ _ |>.mpr (.inr ⟨fun same => ?_, there⟩)
    rw [same, here] at there
    cases there

theorem kept_logAppend {p : Nat} (quiet : s.pc .sync = none) (taken : logAppend s p = some t) :
    Kept g t := by
  obtain ⟨b, data, held, same⟩ := logAppend_eq_some taken
  obtain ⟨member, home⟩ := kept.pending p b data held
  have idle : ∀ agent pc, s.pc agent ≠ some pc := by
    intro agent pc here
    cases agent with
    | boot => cases kept.noBoot.symm.trans here
    | sync => cases quiet.symm.trans here
    | endOp =>
      rw [(kept.committing pc here).2] at member
      cases member
  rw [same]
  refine ⟨kept.noBoot, clean_pin kept.clean _ _ _ _ _, kept.counted,
    pending_erased kept.pending, fun i inside => ?_, fun c flagged => ?_,
    kept.committing, fun agent pc here => absurd here (idle agent pc), fun alone => ?_, kept.header⟩
  · rcases (mem_recordBlock s.lh b _).mp ⟨i, inside, rfl⟩ with new | ⟨j, bound, old⟩
    · rw [new]
      exact home
    · rw [← old]
      exact kept.entriesHome j bound
  · refine (mem_recordBlock s.lh b c).mpr ?_
    by_cases here : c = b
    · exact .inl here
    · refine .inr (kept.dirty c ?_)
      simpa [Sys.DirtyAt, here] using flagged
  · rw [show s.active = [] from alone] at member
    cases member

theorem kept_endOp {p : Nat} (taken : endOp g s p = some t) : Kept g t := by
  obtain ⟨member, free, unlocked, commits⟩ := endOp_eq_some taken
  have length : s.outstanding - 1 = (s.active.erase p).length := by
    rw [length_erase_of_mem member, kept.counted]
  have pending := pending_ended free kept.pending
  have stopped : ∀ pc, s.pc .endOp ≠ some pc := by
    intro pc here
    cases unlocked.symm.trans (kept.committing pc here).1
  rcases commits with ⟨last, _, same⟩ | ⟨half, same⟩
  · obtain ⟨reached, header⟩ := kept.start (Option.eq_none_iff_forall_ne_some.mpr stopped)
    rw [same]
    refine ⟨kept.noBoot, kept.clean, length, pending, kept.entriesHome, kept.dirty,
      fun _ _ => ⟨rfl, eq_nil_of_length_eq_zero (length.symm.trans last)⟩, reached,
        fun _ idle => ?_, header⟩
    cases idle
  · rw [same]
    refine { kept with
      counted := length
      pending := pending
      committing := fun pc here => absurd here (stopped pc)
      small := fun alone _ => half (length.trans ?_) }
    rw [show s.active.erase p = [] from alone]
    rfl

end

theorem kept_step {event : Event} (kept : Kept g s) (undisturbed : Undisturbed s event)
    (taken : step g s event = some t) : Kept g t := by
  cases event with
  | beginOp p =>
    obtain ⟨_, _, unlocked, _, same⟩ := beginOp_eq_some taken
    rw [same]
    refine { kept with counted := ?_, pending := ?_, committing := ?_, small := ?_ }
    · rw [length_cons, kept.counted]
    · exact fun q b data held => (kept.pending q b data held).imp (mem_cons_of_mem _) id
    · intro pc here
      cases unlocked.symm.trans (kept.committing pc here).1
    · intro alone
      cases alone
  | logCheck p b data =>
    have pending := pending_logCheck kept.pending taken
    obtain ⟨_, _, _, _, _, same⟩ := logCheck_eq_some taken
    rw [same] at pending ⊢
    exact { kept with pending := pending }
  | logAppend p => exact kept_logAppend kept undisturbed taken
  | endOp p => exact kept_endOp kept taken
  | sysSync =>
    obtain ⟨_, free, same⟩ := sysSync_eq_some taken
    obtain ⟨reached, header⟩ := kept.start free
    rw [same]
    exact ⟨kept.noBoot, kept.clean, kept.counted, kept.pending, kept.entriesHome, kept.dirty,
      kept.committing, reached, kept.small, header⟩
  | step agent =>
    obtain ⟨pc, here, rfl⟩ := Option.map_eq_some_iff.mp taken
    exact kept_advance kept here
  | crash => exact undisturbed.elim
  | bread b =>
    cases taken
    exact kept.unseen (unseen_bread kept.clean b)
  | recycle b => exact kept.unseen (unseen_recycle kept.clean taken)

theorem kept_recovered {a : Store Nat Block} (rel : Related g s a) (boot : s.pc .boot = none)
    (commit : s.pc .endOp = none) (empty : s.lh.n = 0) : Kept g s := by
  have gathering := (rel.idle_phase boot commit).2
  have stopped : ∀ agent, s.pc agent = none := by
    intro agent
    cases agent with
    | boot => exact boot
    | endOp => exact commit
    | sync => exact rel.ops.noSync
  refine ⟨boot, rel.clean, rel.ops.outstanding, rel.ops.pending, rel.ops.entriesHome,
    fun b => (gathering.dirty b).mp, fun pc here => ?_, fun agent pc here => ?_,
      fun _ _ => by omega, .inl gathering.headEmpty⟩
  · cases commit.symm.trans here
  · cases (stopped agent).symm.trans here

/-- How many steps `commit` still takes with `n` entries. -/
def commitRank (n : Nat) : Pc → Nat
  | .entry => if n > 0 then 2 * n + 7 else 2
  | .writeLog tail => n - tail + n + 6
  | .writeHead => n + 5
  | .install tail => n - tail + 4
  | .clear => 3
  | .erase => 2
  | .readHead | .finish => 1

theorem commitRank_pos (n : Nat) (pc : Pc) : 0 < commitRank n pc := by
  cases pc with
  | entry =>
    simp only [commitRank]
    split
    all_goals omega
  | _ => exact Nat.succ_pos _

theorem commitRank_nextPc (ok : AgentOk g s pc) (going : pc ≠ .clear) (more : pc ≠ .finish) :
    commitRank s.lh.n (nextPc s pc) + 1 = commitRank s.lh.n pc := by
  cases pc with
  | readHead => exact ok.elim
  | clear => exact absurd rfl going
  | finish => exact absurd rfl more
  | entry =>
    by_cases full : s.lh.n > 0
    · simp only [nextPc, commitRank, full, if_true]
      omega
    · simp only [nextPc, commitRank, full, if_false]
  | writeLog tail | install tail =>
    by_cases inside : tail < s.lh.n
    all_goals
      simp only [nextPc, commitRank, inside, if_true, if_false]
      omega
  | _ => rfl

/-- The `commit` of `sys_sync` returns, and no home block looks different. -/
theorem sync_completes (rank : Nat) (kept : Kept g s) (fit : s.lh.n + 1 ≤ g.size)
    (here : s.pc .sync = some pc) (ok : AgentOk g s pc) (commit : s.pc .endOp = none)
    (measure : commitRank s.lh.n pc = rank) :
    ∃ t, Run.exec (step g) s (List.replicate rank (.step .sync)) = some t ∧ Kept g t ∧
      (∀ agent, t.pc agent = none) ∧ t.lh.n = 0 ∧ ∀ b, g.home b → t.view b = s.view b := by
  induction rank generalizing s pc with
  | zero => exact absurd measure (Nat.ne_of_gt (commitRank_pos _ _))
  | succ rank ih =>
    have taken : step g s (.step .sync) = some (advance g s .sync pc) := by
      simp only [step, here, Option.map_some]
    have after := kept_advance kept here
    rw [replicate_succ, Run.exec_cons_of_step _ taken]
    have moved : ∀ next, (advance g s .sync pc).pc = update s.pc .sync next →
        (advance g s .sync pc).pc .sync = next ∧ (advance g s .sync pc).pc .endOp = none := by
      intro next pcs
      rw [pcs, update_self, update_of_ne Agent.noConfusion]
      exact ⟨rfl, commit⟩
    by_cases clears : pc = .clear
    · subst clears
      obtain ⟨there, commit⟩ := moved (some .erase) rfl
      exact ih after g.pos there trivial commit (Nat.succ.inj measure)
    by_cases last : pc = .finish
    · subst last
      obtain ⟨there, commit⟩ := moved none rfl
      obtain rfl : rank = 0 := (Nat.succ.inj measure).symm
      refine ⟨_, rfl, after, fun agent => ?_, kept.reached .sync .finish here, fun _ _ => rfl⟩
      cases agent with
      | boot => exact after.noBoot
      | endOp => exact commit
      | sync => exact there
    · obtain ⟨keeps, next⟩ := keeps_written (kept.entries fit) ok
      have less := commitRank_nextPc ok clears last
      rcases advance_eq g s .sync pc with rfl | cleared | finished | same
      · exact ok.elim
      · exact absurd cleared clears
      · exact absurd finished last
      have lh := keeps.quiet.lh
      obtain ⟨there, commit⟩ :=
        moved (some (nextPc s pc)) (by rw [same, Sys.setPc_pc, keeps.quiet.pc])
      rw [same] at after there commit ⊢
      obtain ⟨t, run, kept, idle, empty, view⟩ :=
        ih after (by rw [Sys.setPc_lh, lh]; exact fit) there
        next commit (by rw [Sys.setPc_lh, lh]; omega)
      exact ⟨t, run, kept, idle, empty, fun b home => (view b home).trans (keeps.view b home)⟩

/-- The steps of an undisturbed recovery. -/
def recovery (g : Layout) (disk : Nat → Block) : List Event :=
  List.replicate (headCount g disk + 5) (.step .boot)

/-- After any run of operations that have all ended, `sys_sync` returns 0 and empties the log, every
home block has on disk what the cache showed when `sys_sync` was called, and a crash and a recovery
change no home block. -/
theorem sync_durable (disk : Nat → Block) (sane : HeaderOk g disk) (events : List Event)
    (undisturbed : Run.Steps (step g) Undisturbed (powerOn disk) (recovery g disk ++ events))
    (run : Run.exec (step g) (powerOn disk) (recovery g disk ++ events) = some s)
    (ended : s.active = []) (idle : ∀ agent, s.pc agent = none) :
    ∃ count t u, Run.exec (step g) s (.sysSync :: List.replicate count (.step .sync)) = some t ∧
      t.pc .sync = none ∧ syncResult t = 0 ∧ t.lh.n = 0 ∧ sysGetLogNum t = 0 ∧
      (∀ b, g.home b → t.disk b = s.view b ∧ t.view b = s.view b) ∧
      Run.exec (step g) (crash t) (recovery g t.disk) = some u ∧ u.pc .boot = none ∧
      ∀ b, g.home b → u.disk b = t.disk b := by
  obtain ⟨first, recovered, boot, commit, empty, rel⟩ :=
    recovery_completes _ (related_powerOn sane) (rfl : _ = some Pc.readHead) rfl
  have run : Run.exec (step g) first events = some s := by
    rw [Run.exec_append, show Run.exec (step g) (powerOn disk) (recovery g disk) =
      some first from recovered]
      at run
    exact run
  have kept : Kept g s :=
    Run.exec_invariant (Kept g) (fun _ _ _ => kept_step) (kept_recovered rel boot commit empty)
      (undisturbed.of_append recovered).2 run
  have small := kept.small ended (idle .endOp)
  have begins : step g s .sysSync = some (s.setPc .sync (some .entry)) := by
    simp only [step, sysSync, idle, ne_eq, not_true_eq_false, or_self, if_false]
  have pos := g.pos
  have called : Kept g (s.setPc .sync (some .entry)) := kept_step kept (by trivial) begins
  have here : (s.setPc .sync (some .entry)).pc .sync = some .entry := by rw [Sys.setPc_pc,
      update_self]
  obtain ⟨t, synced, after, stopped, none, view⟩ :=
    sync_completes _ called (by rw [Sys.setPc_lh]; omega) here trivial (idle .endOp) rfl
  have agree : ∀ b, t.view b = t.disk b := by
    refine fun b => after.clean.view_eq_disk fun flagged => ?_
    obtain ⟨i, inside, _⟩ := after.dirty b flagged
    omega
  have erased : headCount g t.disk = 0 := by
    rcases after.header with erased | ⟨agent, pc, here, _⟩
    · exact erased
    · cases (stopped agent).symm.trans here
  obtain ⟨u, restarted, up, unlocked, _, same⟩ :=
    recovery_completes _ (related_powerOn (.of_empty erased)) (rfl : _ = some Pc.readHead) rfl
  refine ⟨commitRank s.lh.n .entry, t, u, ?_, stopped .sync, if_pos none, none, none, fun b home =>
      ?_, restarted, up,
    fun b home => ?_⟩
  · rw [Run.exec_cons_of_step _ begins]
    exact synced
  · exact ⟨(agree b).symm.trans (view b home), view b home⟩
  · rw [same.disk_of_empty (same.idle_phase up unlocked).2.headEmpty home]
    exact congrFun (redo_of_empty erased) b

theorem sync_durable_after_op :
    let events := [.beginOp 0, .logCheck 0 100 (fill 7), .logAppend 0, .endOp 0]
    ∃ s, Run.exec (step fsLog) (powerOn fun _ => zero)
        (recovery fsLog (fun _ => zero) ++ events) = some s ∧ s.lh.n = 1 ∧
      ∃ count t u, Run.exec (step fsLog) s (.sysSync :: List.replicate count (.step .sync)) =
        some t ∧
      t.pc .sync = none ∧ syncResult t = 0 ∧ t.lh.n = 0 ∧ sysGetLogNum t = 0 ∧
      (∀ b, fsLog.home b → t.disk b = s.view b ∧ t.view b = s.view b) ∧
      Run.exec (step fsLog) (crash t) (recovery fsLog t.disk) = some u ∧ u.pc .boot = none ∧
      ∀ b, fsLog.home b → u.disk b = t.disk b := by
  have sane : HeaderOk fsLog (fun _ => zero) := .of_empty (getWord_zero 0)
  refine ⟨_, rfl, rfl, sync_durable _ sane [.beginOp 0, .logCheck 0 100 (fill 7), .logAppend 0,
    .endOp 0] (by decide) rfl rfl fun agent => ?_⟩
  cases agent <;> rfl

end Xv6.Log
