import Xv6.Log.Sync

/- Who is let into the log. The steps of `begin_op`, `log_write`, `end_op` and of `end_op`'s commit,
without `sys_sync` and crashes. -/
namespace Xv6.Log

open Function Bytes List

variable {g : Layout} {s t : Sys} {p : Nat}

/-- What holds between `begin_op`, `log_write`, `end_op` and the commit. -/
structure OpInv (s : Sys) : Prop where
  noBoot : s.pc .boot = none
  noSync : s.pc .sync = none
  counted : s.outstanding = s.active.length
  nodup : s.active.Nodup
  pending : ∀ p held, s.pending p = some held → p ∈ s.active
  idle : s.committing = false ↔ s.pc .endOp = none
  alone : s.committing = true → s.active = []
  cleared : ∀ pc, s.pc .endOp = some pc → pc ≠ .readHead ∧ (pc = .erase ∨ pc = .finish → s.lh.n = 0)

/-- Neither `sys_sync` nor a crash. -/
def Regular : Event → Prop
  | .sysSync | .crash => False
  | _ => True

instance (event : Event) : Decidable (Regular event) := by
  rcases event <;> dsimp only [Regular] <;> infer_instance

section

variable (inv : OpInv s)
include inv

theorem OpInv.unlocked (member : p ∈ s.active) : s.committing = false := by
  cases state : s.committing with
  | false => rfl
  | true =>
    rw [inv.alone state] at member
    cases member

theorem opInv_beginOp (taken : beginOp s p = some t) : OpInv t := by
  obtain ⟨_, outside, unlocked, _, same⟩ := beginOp_eq_some taken
  rw [same]
  constructor
  · exact inv.noBoot
  · exact inv.noSync
  · show s.outstanding + 1 = (p :: s.active).length
    rw [length_cons, inv.counted]
  · exact nodup_cons.mpr ⟨outside, inv.nodup⟩
  · intro q held found
    exact mem_cons_of_mem p (inv.pending q held found)
  · exact inv.idle
  · intro locked
    exact absurd (unlocked.symm.trans locked) Bool.false_ne_true
  · exact inv.cleared

theorem opInv_logCheck {b : Nat} {data : Block} (taken : logCheck g s p b data = some t) :
    OpInv t := by
  obtain ⟨member, _, _, _, _, same⟩ := logCheck_eq_some taken
  rw [same]
  refine ⟨inv.noBoot, inv.noSync, inv.counted, inv.nodup, ?_, inv.idle, inv.alone, inv.cleared⟩
  intro q held found
  by_cases equal : q = p
  · rw [equal]
    exact member
  · dsimp only at found
    rw [update_of_ne equal] at found
    exact inv.pending q held found

theorem opInv_logAppend (taken : logAppend s p = some t) : OpInv t := by
  obtain ⟨b, data, held, same⟩ := logAppend_eq_some taken
  have unlocked := inv.unlocked (inv.pending p _ held)
  rw [same]
  refine ⟨inv.noBoot, inv.noSync, inv.counted, inv.nodup, ?_, inv.idle, inv.alone, ?_⟩
  · intro q kept found
    dsimp only at found
    rw [update_apply] at found
    split at found
    · cases found
    · exact inv.pending q kept found
  · intro pc here
    rw [inv.idle.mp unlocked] at here
    cases here

theorem opInv_ended (member : p ∈ s.active) (free : s.pending p = none) : OpInv (ended s p) := by
  have unlocked := inv.unlocked member
  constructor
  · exact inv.noBoot
  · exact inv.noSync
  · show s.outstanding - 1 = (s.active.erase p).length
    rw [length_erase_of_mem member, inv.counted]
  · exact inv.nodup.erase p
  · intro q held found
    have apart : q ≠ p := by
      intro equal
      rw [equal] at found
      cases free.symm.trans found
    exact (mem_erase_of_ne apart).mpr (inv.pending q held found)
  · exact inv.idle
  · intro locked
    exact absurd (unlocked.symm.trans locked) Bool.false_ne_true
  · exact inv.cleared

theorem opInv_endOp (taken : endOp g s p = some t) : OpInv t := by
  obtain ⟨member, free, _, commits⟩ := endOp_eq_some taken
  have after := opInv_ended inv member free
  rcases commits with ⟨last, _, same⟩ | ⟨_, same⟩
  · rw [same]
    refine ⟨after.noBoot, after.noSync, after.counted, after.nodup, after.pending, ?_, ?_, ?_⟩
    · rw [Sys.setPc_pc, update_self]
      exact iff_of_false Bool.noConfusion (Option.some_ne_none _)
    · intro _
      exact eq_nil_of_length_eq_zero (after.counted.symm.trans last)
    · intro pc here
      rw [Sys.setPc_pc, update_self] at here
      cases here
      exact ⟨Pc.noConfusion, fun next => next.elim Pc.noConfusion Pc.noConfusion⟩
  · rw [same]
    exact after

theorem OpInv.goto (quiet : Quiet s t) (locked : s.committing = true) {pc : Pc}
    (noRead : pc ≠ .readHead) (cleared : pc = .erase ∨ pc = .finish → s.lh.n = 0) :
    OpInv (t.setPc .endOp (some pc)) := by
  constructor
  · show update t.pc .endOp (some pc) .boot = none
    rw [update_of_ne Agent.noConfusion, quiet.pc]
    exact inv.noBoot
  · show update t.pc .endOp (some pc) .sync = none
    rw [update_of_ne Agent.noConfusion, quiet.pc]
    exact inv.noSync
  · show t.outstanding = t.active.length
    rw [quiet.outstanding, quiet.active]
    exact inv.counted
  · show t.active.Nodup
    rw [quiet.active]
    exact inv.nodup
  · intro q held found
    show q ∈ t.active
    rw [quiet.active]
    apply inv.pending q held
    rw [← quiet.pending]
    exact found
  · rw [Sys.setPc_committing, quiet.committing, locked, Sys.setPc_pc, update_self]
    exact iff_of_false Bool.noConfusion (Option.some_ne_none _)
  · intro _
    rw [Sys.setPc_active, quiet.active]
    exact inv.alone locked
  · intro next here
    rw [Sys.setPc_pc, update_self] at here
    cases here
    rw [Sys.setPc_lh, quiet.lh]
    exact ⟨noRead, cleared⟩

theorem OpInv.locked {pc : Pc} (here : s.pc .endOp = some pc) : s.committing = true := by
  cases state : s.committing with
  | true => rfl
  | false =>
    rw [inv.idle.mp state] at here
    cases here

theorem OpInv.clear (locked : s.committing = true) :
    OpInv (Sys.setPc { s with lh := { s.lh with n := 0 } } .endOp (some .erase)) := by
  have emptied : OpInv { s with lh := { s.lh with n := 0 } } :=
    ⟨inv.noBoot, inv.noSync, inv.counted, inv.nodup, inv.pending, inv.idle, inv.alone,
      fun pc here => ⟨(inv.cleared pc here).1, fun _ => rfl⟩⟩
  exact emptied.goto ⟨rfl, rfl, rfl, rfl, rfl, rfl, rfl, rfl⟩ locked Pc.noConfusion fun _ => rfl

theorem OpInv.finish (locked : s.committing = true) :
    OpInv (Sys.setPc { s with committing := false } .endOp none) := by
  constructor
  · show update s.pc .endOp none .boot = none
    rw [update_of_ne Agent.noConfusion]
    exact inv.noBoot
  · show update s.pc .endOp none .sync = none
    rw [update_of_ne Agent.noConfusion]
    exact inv.noSync
  · exact inv.counted
  · exact inv.nodup
  · exact inv.pending
  · rw [Sys.setPc_pc, update_self]
    exact iff_of_true rfl rfl
  · intro _
    exact inv.alone locked
  · intro pc here
    rw [Sys.setPc_pc, update_self] at here
    cases here

theorem opInv_advance {pc : Pc} (here : s.pc .endOp = some pc) : OpInv (advance g s .endOp pc) := by
  have locked := inv.locked here
  obtain ⟨noRead, cleared⟩ := inv.cleared pc here
  rcases advance_eq g s .endOp pc with rfl | rfl | rfl | same
  · exact absurd rfl noRead
  · exact inv.clear locked
  · exact inv.finish locked
  · rw [same]
    refine inv.goto (quiet_written g s pc) locked (nextPc_ne_readHead noRead) fun last => ?_
    exact (nextPc_last last).elim (fun before => cleared before) id

end

/-- Only the last step of a commit lets others in. -/
theorem advance_committing {pc : Pc} (before : pc ≠ .finish) (noRead : pc ≠ .readHead) :
    (advance g s .endOp pc).committing = s.committing := by
  rcases advance_eq g s .endOp pc with rfl | rfl | rfl | same
  · exact absurd rfl noRead
  · rfl
  · exact absurd rfl before
  · rw [same]
    exact (quiet_written g s pc).committing

theorem OpInv.congr (inv : OpInv s) (quiet : Quiet s t) : OpInv t := by
  obtain ⟨outstanding, committing, lh, pc, active, pending, _, _⟩ := quiet
  constructor
  · rw [pc]
    exact inv.noBoot
  · rw [pc]
    exact inv.noSync
  · rw [outstanding, active]
    exact inv.counted
  · rw [active]
    exact inv.nodup
  · rw [pending, active]
    exact inv.pending
  · rw [committing, pc]
    exact inv.idle
  · rw [committing, active]
    exact inv.alone
  · rw [pc, lh]
    exact inv.cleared

/-- Only `end_op` commits. -/
theorem OpInv.agent (inv : OpInv s) {agent : Agent} {pc : Pc} (here : s.pc agent = some pc) :
    agent = .endOp := by
  cases agent with
  | endOp => rfl
  | sync =>
    rw [inv.noSync] at here
    cases here
  | boot =>
    rw [inv.noBoot] at here
    cases here

theorem opInv_started (disk : Nat → Block) : OpInv (started disk) := by
  have stopped : ∀ agent, (started disk).pc agent = none := by
    intro agent
    cases agent with
    | boot => rfl
    | endOp => rfl
    | sync => rfl
  constructor
  · exact stopped .boot
  · exact stopped .sync
  · rfl
  · exact nodup_nil
  · intro p held found
    cases found
  · exact iff_of_true rfl (stopped .endOp)
  · intro _
    rfl
  · intro pc here
    rw [stopped] at here
    cases here

end Xv6.Log
