import Xv6.Log.OpSteps

/- A crash at any step, recovery included, followed by a whole recovery gives back the store as
it was at the last commit. -/
namespace Xv6.Log

open Bytes GroupStore

variable {g : Layout} {s : Sys} {a : Store Nat Block}

/-- How many steps recovery still takes. -/
def bootRank (g : Layout) (s : Sys) : Pc → Nat
  | .readHead => headCount g s.disk + 5
  | .install tail => s.lh.n - tail + 4
  | .clear => 3
  | .erase => 2
  | _ => 1

theorem boot_progress (rel : Related g s a) {pc : Pc} (here : s.pc .boot = some pc) :
    (bootRank g s pc = 1 ∧ (advance g s .boot pc).pc .boot = none ∧
        (advance g s .boot pc).pc .endOp = none ∧ (advance g s .boot pc).lh.n = 0) ∨
      ∃ next, (advance g s .boot pc).pc .boot = some next ∧
        bootRank g (advance g s .boot pc) next + 1 = bootRank g s pc := by
  have phase := (rel.boot_phase here).2.2.2.2.2
  have settled := (rel.boot_phase here).2.2.2.2.1
  cases pc with
  | readHead =>
    refine .inr ⟨.install 0, by simp [advance], ?_⟩
    have count : (readHead g s).lh.n = headCount g s.disk := by
      simp only [readHead, getHeader, Sys.bread_view, headCount,
        rel.clean.view_eq_disk (settled g.start)]
    simp only [bootRank, advance, Sys.setPc_lh, count]
    omega
  | install tail =>
    by_cases inside : tail < s.lh.n
    · refine .inr ⟨.install (tail + 1), by simp [advance, inside], ?_⟩
      simp only [bootRank, advance, inside, if_true, Sys.setPc_lh, (quiet_installBlock g s tail).lh]
      omega
    · refine .inr ⟨.clear, by simp [advance, inside], ?_⟩
      simp only [bootRank]
      omega
  | clear => exact .inr ⟨.erase, by simp [advance], rfl⟩
  | erase => exact .inr ⟨.finish, by simp [advance], rfl⟩
  | finish => exact .inl ⟨rfl, by simp [advance], by simp [advance, (rel.boot_phase here).1],
      phase.1⟩
  | entry => exact phase.elim
  | writeLog tail => exact phase.elim
  | writeHead => exact phase.elim

theorem reads_length (pc : Pc) : (reads g s pc).length ≤ 2 := by
  cases pc with
  | writeLog tail | install tail =>
    simp only [reads]
    split
    · exact Nat.le_refl 2
    · exact Nat.zero_le 2
  | _ => simp [reads]

/-- Nothing is dirty at boot, so recovery always gets its buffers. -/
theorem buffered_boot (rel : Related g s a) {pc : Pc} (here : s.pc .boot = some pc) :
    Buffered g s (.step .boot) := by
  obtain ⟨_, _, alone, _, settled, _⟩ := rel.boot_phase here
  have none : pinned s = [] := by
    rw [pinned, alone, List.filterMap_nil, List.append_nil, List.filter_eq_nil_iff]
    intro b _ flagged
    exact settled b (Option.any_eq_true _ _ |>.mp flagged)
  intro _
  rw [none, List.nil_append]
  calc (touched g s (.step .boot)).dedup.length
    _ ≤ (touched g s (.step .boot)).length := (List.dedup_sublist _).length_le
    _ = (reads g s pc).length := by simp only [touched, here, Option.map_some, Option.getD_some]
    _ ≤ NBUF := Nat.le_trans (reads_length pc) (by decide)

theorem recovery_buffered (rank : Nat) (rel : Related g s a) {pc : Pc}
    (here : s.pc .boot = some pc) (measure : bootRank g s pc = rank) :
    ∃ t, Run.exec (bufferedStep g) s (List.replicate rank (.step .boot)) = some t ∧
      t.pc .boot = none ∧ t.pc .endOp = none ∧ t.lh.n = 0 ∧ Related g t a := by
  induction rank generalizing s pc with
  | zero => cases pc <;> simp [bootRank] at measure
  | succ rank ih =>
    have after := related_step_boot rel here
    have taken : bufferedStep g s (.step .boot) = some (advance g s .boot pc) := by
      simp only [bufferedStep, if_pos (buffered_boot rel here), step, here, Option.map_some]
    rw [List.replicate_succ, Run.exec_cons_of_step _ taken]
    rcases boot_progress rel here with ⟨last, done, idle, empty⟩ | ⟨next, there, less⟩
    · obtain rfl : rank = 0 := by omega
      exact ⟨_, rfl, done, idle, empty, after⟩
    · exact ih after there (by omega)

theorem recovery_completes (rank : Nat) (rel : Related g s a) {pc : Pc}
    (here : s.pc .boot = some pc) (measure : bootRank g s pc = rank) :
    ∃ t, Run.exec (step g) s (List.replicate rank (.step .boot)) = some t ∧
      t.pc .boot = none ∧ t.pc .endOp = none ∧ t.lh.n = 0 ∧ Related g t a := by
  obtain ⟨t, run, rest⟩ := recovery_buffered rank rel here measure
  exact ⟨t, Run.exec_mono (fun _ _ _ taken => (bufferedStep_eq_some taken).2) run, rest⟩

/-- The relation holds when the machine is switched on with a sane header on disk. -/
theorem related_powerOn {disk : Nat → Block} (ok : HeaderOk g disk) :
    Related g (powerOn disk) (Store.init (redo g disk)) := by
  refine ⟨⟨rfl, rfl, rfl, Nat.le_refl _, by simp [powerOn], by simp [powerOn]⟩,
    by simp [powerOn, Sys.Clean], ok, fun b home => rfl,
    phase_boot rfl rfl rfl rfl rfl ?_ trivial⟩
  rintro b ⟨buf, cached, _⟩
  cases cached

/-- After any run without `sys_sync`, on a disk whose log has at least as many blocks as there are
buffers (mkfs makes it so), a crash and one undisturbed recovery leave the home blocks as the
operations before the last commit point made them. The abstract run has a commit point only where
no operation is active. -/
theorem crash_recovery_atomic (disk : Nat → Block) (ok : HeaderOk g disk) (room : NBUF ≤ g.size)
    (events : List Event)
    (unsynced : Run.Steps (bufferedStep g) (fun _ => Unsynced) (powerOn disk) events)
    (run : Run.exec (bufferedStep g) (powerOn disk) events = some s) :
    ∃ a t, Run.exec Store.step (Store.init (redo g disk))
        (Run.observe (bufferedStep g) seen (powerOn disk) events) = some a ∧
      Run.exec (bufferedStep g) (crash s)
        (List.replicate (headCount g s.disk + 5) (.step .boot)) = some t ∧
      t.pc .boot = none ∧ ∀ b, g.home b → t.disk b = a.committed b := by
  obtain ⟨a, abstractRun, rel⟩ := Run.exec_simulation seen (Related g)
    (fun s event t a rel allowed taken => by
      obtain ⟨buffered, stepped⟩ := bufferedStep_eq_some taken
      exact related_step room rel allowed buffered stepped)
    (related_powerOn ok) unsynced run
  obtain ⟨t, recovery, done, idle, _, relDone⟩ :=
    recovery_buffered (headCount g s.disk + 5) (related_crash rel) (rfl : _ = some Pc.readHead) rfl
  refine ⟨a, t, abstractRun, recovery, done, fun b home => ?_⟩
  rw [relDone.disk_of_empty (relDone.idle_phase done idle).2.headEmpty home, Store.committed_crash]

/-- The `log_write`s of one operation to consecutive blocks. -/
def logWrites (p first count : Nat) : List Event :=
  (List.range count).flatMap fun i => [.logCheck p (first + i) (fill 7), .logAppend p]

/-- Two operations log eight blocks each, and the second `end_op` commits them. -/
def groupRun : List Event :=
  List.replicate 5 (.step .boot) ++ [.beginOp 0, .beginOp 1] ++
    logWrites 0 100 8 ++ logWrites 1 108 8 ++ [.endOp 0, .endOp 1] ++
    List.replicate 20 (.step .endOp)

/-- The crash comes after the first of the sixteen blocks is installed. -/
theorem crash_recovery_atomic_group :
    HeaderOk fsLog (fun _ => zero) ∧
      Run.Steps (bufferedStep fsLog) (fun _ => Unsynced) (powerOn fun _ => zero) groupRun ∧
      ∃ s, Run.exec (bufferedStep fsLog) (powerOn fun _ => zero) groupRun = some s ∧
      s.pc .endOp = some (.install 1) ∧ headCount fsLog s.disk = 16 ∧
      ∃ a t, Run.exec Store.step (Store.init (redo fsLog fun _ => zero))
          (Run.observe (bufferedStep fsLog) seen (powerOn fun _ => zero) groupRun) = some a ∧
        Run.exec (bufferedStep fsLog) (crash s)
          (List.replicate (headCount fsLog s.disk + 5) (.step .boot)) = some t ∧
        t.pc .boot = none ∧ ∀ b, fsLog.home b → t.disk b = a.committed b := by
  have ok : HeaderOk fsLog (fun _ => zero) := HeaderOk.of_empty (getWord_zero 0)
  have unsynced : Run.Steps (bufferedStep fsLog) (fun _ => Unsynced) (powerOn fun _ => zero)
      groupRun := by
    decide +kernel
  have ends : (Run.exec (bufferedStep fsLog) (powerOn fun _ => zero) groupRun).map
      (fun s => (s.pc .endOp, headCount fsLog s.disk)) = some (some (.install 1), 16) := by
    decide +kernel
  obtain ⟨s, run, facts⟩ := Option.map_eq_some_iff.mp ends
  rw [Prod.mk.injEq] at facts
  exact ⟨ok, unsynced, s, run, facts.1, facts.2,
    crash_recovery_atomic _ ok (by decide) _ unsynced run⟩

end Xv6.Log
