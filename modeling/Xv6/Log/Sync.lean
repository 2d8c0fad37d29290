import Xv6.Log.OpSteps

/- `sys_sync` runs `commit` without looking at `log.outstanding` and without setting
`log.committing`. This is when that is harmless. -/
namespace Xv6.Log

open Bytes

/-- The machine after boot, with an empty log. -/
def started (disk : Nat → Block) : Sys := (powerOn disk).setPc .boot none

/-- An operation that has not ended has logged the block. -/
def Sys.Exposed (s : Sys) (b : Nat) : Prop := ∃ p ∈ s.active, b ∈ s.wrote p

/-- Both header writes of `commit` name finished updates only, and `log.lh.n = 0` drops only
blocks whose final content is at home. -/
def SyncSafe (s : Sys) : Event → Prop
  | .step agent =>
    (s.pc agent = some .writeHead ∨ s.pc agent = some .erase → ∀ i < s.lh.n,
      ¬ s.Exposed (s.lh.block i)) ∧
    (s.pc agent = some .clear → ∀ i < s.lh.n, ¬ s.Exposed (s.lh.block i) ∧
        s.disk (s.lh.block i) = s.settled (s.lh.block i))
  | _ => True

/-- `sys_sync` is not called, and when `log_write` gets the lock the log still has the room that
its test saw. -/
def Admitted (g : Layout) (s : Sys) : Event → Prop
  | .sysSync => False
  | .logAppend p => ∀ held ∈ s.pending p,
      slotOf s.lh held.1 < s.lh.n ∨ (s.lh.n < LOGSIZE ∧ s.lh.n + 1 < g.size)
  | _ => True

instance (g : Layout) (s : Sys) (event : Event) : Decidable (Admitted g s event) := by
  rcases event <;> dsimp only [Admitted] <;> infer_instance

/-- `sys_sync` is called only when no active operation has logged anything, nothing is logged
while it runs, and `log_write` has the room its test saw. -/
def Orderly (g : Layout) (s : Sys) : Event → Prop
  | .sysSync => ∀ p ∈ s.active, s.wrote p = []
  | .logAppend p => s.pc .sync = none ∧ Admitted g s (.logAppend p)
  | .crash => False
  | _ => True

instance (g : Layout) (s : Sys) (event : Event) : Decidable (Orderly g s event) := by
  rcases event <;> dsimp only [Orderly] <;> infer_instance

def CopiedAt (g : Layout) (s : Sys) (i : Nat) : Prop :=
  s.disk (g.start + i + 1) = s.view (s.lh.block i)

def InstalledAt (s : Sys) (i : Nat) : Prop := s.disk (s.lh.block i) = s.view (s.lh.block i)

/-- What a caller of `commit` has done so far, of the entries that are still there: the other
caller may have cleared the log. -/
def AgentOk (g : Layout) (s : Sys) : Pc → Prop
  | .readHead => False
  | .writeLog tail => ∀ i < s.lh.n, i < tail → CopiedAt g s i
  | .writeHead => ∀ i < s.lh.n, CopiedAt g s i
  | .install tail => (∀ i < s.lh.n, CopiedAt g s i) ∧ ∀ i < s.lh.n, i < tail → InstalledAt s i
  | .clear => ∀ i < s.lh.n, InstalledAt s i
  | _ => True

structure SyncInv (g : Layout) (s : Sys) : Prop where
  noBoot : s.pc .boot = none
  clean : s.Clean
  nodup : s.active.Nodup
  counted : s.outstanding = s.active.length
  pending : ∀ p b data, s.pending p = some (b, data) → p ∈ s.active ∧ g.home b
  entriesHome : ∀ i < s.lh.n, g.home (s.lh.block i)
  entriesFit : s.lh.n + 1 ≤ g.size
  entriesSmall : s.lh.n ≤ LOGSIZE
  fresh : ∀ p, p ∉ s.active → s.wrote p = []
  committing : ∀ pc, s.pc .endOp = some pc → s.committing = true ∧ s.active = []
  syncing : ∀ pc, s.pc .sync = some pc → ∀ p ∈ s.active, s.wrote p = []
  dirtyHome : ∀ b, s.DirtyAt b → g.home b
  view : ∀ b, g.home b → ¬ s.Exposed b → s.view b = s.settled b
  agents : ∀ agent pc, s.pc agent = some pc → AgentOk g s pc

/-- The log names home blocks and has room for them, and only home blocks wait to be written. -/
structure Entries (g : Layout) (s : Sys) : Prop where
  clean : s.Clean
  home : ∀ i < s.lh.n, g.home (s.lh.block i)
  fit : s.lh.n + 1 ≤ g.size
  dirtyHome : ∀ b, s.DirtyAt b → g.home b

variable {g : Layout} {s t : Sys}

theorem SyncInv.entries (inv : SyncInv g s) : Entries g s :=
  ⟨inv.clean, inv.entriesHome, inv.entriesFit, inv.dirtyHome⟩

/-- While somebody runs `commit`, no active operation has logged anything. -/
theorem SyncInv.not_exposed (inv : SyncInv g s) {agent : Agent} {pc : Pc}
    (here : s.pc agent = some pc) (b : Nat) : ¬ s.Exposed b := by
  rintro ⟨p, member, logged⟩
  cases agent with
  | endOp =>
    rw [(inv.committing pc here).2] at member
    cases member
  | sync =>
    rw [inv.syncing pc here p member] at logged
    cases logged
  | boot =>
    rw [inv.noBoot] at here
    cases here

/-- The property follows from the invariant. -/
theorem SyncInv.safe (inv : SyncInv g s) (event : Event) : SyncSafe s event := by
  cases event with
  | step agent =>
    refine ⟨?_, ?_⟩
    · rintro (here | here) i _ <;> exact inv.not_exposed here _
    · intro here i inside
      have exposed := inv.not_exposed here (s.lh.block i)
      refine ⟨exposed, ?_⟩
      rw [← inv.view _ (inv.entriesHome i inside) exposed]
      exact inv.agents agent .clear here i inside
  | _ => trivial

/-- A step that keeps what the callers of `commit` have done. -/
structure Keeps (g : Layout) (s t : Sys) : Prop where
  quiet : Quiet s t
  clean : t.Clean
  dirty : ∀ b, t.DirtyAt b → s.DirtyAt b
  view : ∀ b, g.home b → t.view b = s.view b
  copied : ∀ i < s.lh.n, CopiedAt g s i → CopiedAt g t i
  installed : ∀ i < s.lh.n, InstalledAt s i → InstalledAt t i

theorem Keeps.refl (clean : s.Clean) : Keeps g s s :=
  ⟨⟨rfl, rfl, rfl, rfl, rfl, rfl, rfl, rfl⟩, clean, fun _ flagged => flagged, fun _ _ => rfl,
    fun _ _ done => done, fun _ _ done => done⟩

theorem Keeps.agentOk (keeps : Keeps g s t) {pc : Pc} (ok : AgentOk g s pc) : AgentOk g t pc := by
  have count : t.lh.n = s.lh.n := by rw [keeps.quiet.lh]
  cases pc with
  | readHead => exact ok
  | writeLog tail =>
    intro i inside bound
    exact keeps.copied i (count ▸ inside) (ok i (count ▸ inside) bound)
  | writeHead =>
    intro i inside
    exact keeps.copied i (count ▸ inside) (ok i (count ▸ inside))
  | install tail =>
    refine ⟨fun i inside => ?_, fun i inside bound => ?_⟩
    · exact keeps.copied i (count ▸ inside) (ok.1 i (count ▸ inside))
    · exact keeps.installed i (count ▸ inside) (ok.2 i (count ▸ inside) bound)
  | clear =>
    intro i inside
    exact keeps.installed i (count ▸ inside) (ok i (count ▸ inside))
  | entry => trivial
  | erase => trivial
  | finish => trivial

theorem Keeps.inv (keeps : Keeps g s t) (inv : SyncInv g s) : SyncInv g t := by
  have quiet := keeps.quiet
  have exposed : ∀ b, t.Exposed b ↔ s.Exposed b := by
    intro b
    unfold Sys.Exposed
    rw [quiet.active, quiet.wrote]
  refine ⟨?_, keeps.clean, ?_, ?_, ?_, ?_, ?_, ?_, ?_, ?_, ?_, ?_, ?_, ?_⟩
  · rw [quiet.pc]; exact inv.noBoot
  · rw [quiet.active]; exact inv.nodup
  · rw [quiet.outstanding, quiet.active]; exact inv.counted
  · rw [quiet.pending, quiet.active]; exact inv.pending
  · rw [quiet.lh]; exact inv.entriesHome
  · rw [quiet.lh]; exact inv.entriesFit
  · rw [quiet.lh]; exact inv.entriesSmall
  · rw [quiet.active, quiet.wrote]; exact inv.fresh
  · rw [quiet.pc, quiet.committing, quiet.active]; exact inv.committing
  · rw [quiet.pc, quiet.active, quiet.wrote]; exact inv.syncing
  · exact fun b flagged => inv.dirtyHome b (keeps.dirty b flagged)
  · intro b home unexposed
    rw [keeps.view b home, quiet.settled]
    exact inv.view b home (fun other => unexposed ((exposed b).mpr other))
  · intro agent pc here
    rw [quiet.pc] at here
    exact keeps.agentOk (inv.agents agent pc here)

theorem SyncInv.goto (inv : SyncInv g s) {agent : Agent} {old new : Pc}
    (here : s.pc agent = some old) (ok : AgentOk g s new) :
    SyncInv g (s.setPc agent (some new)) := by
  have notBoot : Agent.boot ≠ agent := by
    rintro rfl
    rw [inv.noBoot] at here
    cases here
  refine ⟨?_, inv.clean, inv.nodup, inv.counted, inv.pending, inv.entriesHome, inv.entriesFit,
    inv.entriesSmall, inv.fresh, ?_, ?_, inv.dirtyHome, inv.view, ?_⟩
  · rw [Sys.setPc_pc, Function.update_of_ne notBoot]
    exact inv.noBoot
  · intro pc there
    rcases s.setPc_eq_some _ _ |>.mp there with ⟨same, _⟩ | ⟨_, before⟩
    · exact inv.committing old (same ▸ here)
    · exact inv.committing pc before
  · intro pc there
    rcases s.setPc_eq_some _ _ |>.mp there with ⟨same, _⟩ | ⟨_, before⟩
    · exact inv.syncing old (same ▸ here)
    · exact inv.syncing pc before
  · intro other pc there
    rcases s.setPc_eq_some _ _ |>.mp there with ⟨_, same⟩ | ⟨_, before⟩
    · cases same
      exact ok
    · exact inv.agents other pc before

end Xv6.Log
