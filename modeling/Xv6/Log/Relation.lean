import Xv6.Log.Effect
import Xv6.Lib.GroupStore
import Xv6.Lib.Run

/- The log refines a store that commits whole groups of operations. The relation below ties the
disk, the cache and the position in `commit` or `recover_from_log` to the abstract store. -/
namespace Xv6.Log

open Bytes GroupStore

variable {g : Layout} {s : Sys} {a : Store Nat Block} {pc : Pc}

/-- The actions of the abstract store that a step stands for. The commit point is the header
write of the `commit` that the last `end_op` runs. -/
def seen (s : Sys) : Event → List (GroupStore.Action Nat Block)
  | .beginOp p => [.start p]
  | .logAppend p => ((s.pending p).map (fun held => .write p held.1 held.2)).toList
  | .endOp p => [.finish p]
  | .crash => [.crash]
  | .step .endOp => if s.pc .endOp = some .writeHead then [.commit] else []
  | _ => []

/-- `sys_sync` is not called. -/
def Unsynced : Event → Prop
  | .sysSync => False
  | _ => True

instance (event : Event) : Decidable (Unsynced event) := by
  rcases event <;> dsimp only [Unsynced] <;> infer_instance

/-- The part of the relation that does not mention the disk. -/
structure Ops (g : Layout) (s : Sys) (a : Store Nat Block) : Prop where
  noSync : s.pc .sync = none
  active : a.active = s.active
  outstanding : s.outstanding = s.active.length
  durable : a.durable ≤ a.history.length
  pending : ∀ p b data, s.pending p = some (b, data) → p ∈ s.active ∧ g.home b
  entriesHome : ∀ i < s.lh.n, g.home (s.lh.block i)

/-- Nothing of the current group is on the disk yet, except in the unused log area. The dirty
buffers are those of the logged blocks, each of which has one entry. -/
structure Gathering (g : Layout) (s : Sys) (a : Store Nat Block) : Prop where
  headEmpty : headCount g s.disk = 0
  view : ∀ b, g.home b → s.view b = a.current b
  dirty : ∀ b, s.DirtyAt b ↔ ∃ i < s.lh.n, s.lh.block i = b
  distinct : ∀ i < s.lh.n, ∀ j < s.lh.n, s.lh.block i = s.lh.block j → i = j

/-- The first `count` log blocks hold the new content of the blocks they stand for. -/
def Copied (g : Layout) (s : Sys) (a : Store Nat Block) (count : Nat) : Prop :=
  ∀ i < count, s.disk (g.start + i + 1) = a.current (s.lh.block i)

/-- The header is on disk and the first `tail` blocks are at home. -/
structure Installing (g : Layout) (s : Sys) (a : Store Nat Block) (tail : Nat) : Prop where
  durable : a.durable = a.history.length
  count : headCount g s.disk = s.lh.n
  block : ∀ i < s.lh.n, headBlock g s.disk i = s.lh.block i
  copied : Copied g s a s.lh.n
  view : ∀ b, g.home b → s.view b = a.current b
  dirty : ∀ b, s.DirtyAt b → ∃ i, tail ≤ i ∧ i < s.lh.n ∧ s.lh.block i = b

structure Installed (g : Layout) (s : Sys) (a : Store Nat Block) : Prop where
  durable : a.durable = a.history.length
  empty : s.lh.n = 0
  view : ∀ b, g.home b → s.view b = a.current b
  settled : ∀ b, ¬ s.DirtyAt b

def CommitPhase (g : Layout) (s : Sys) (a : Store Nat Block) : Pc → Prop
  | .readHead => False
  | .entry => Gathering g s a
  | .writeLog tail =>
    Gathering g s a ∧ tail ≤ s.lh.n ∧ (0 < tail → s.lh.n < NBUF) ∧ Copied g s a tail
  | .writeHead => Gathering g s a ∧ Copied g s a s.lh.n
  | .install tail => Installing g s a tail
  | .clear => Installing g s a s.lh.n
  | .erase => Installed g s a
  | .finish => Gathering g s a

def BootPhase (g : Layout) (s : Sys) (a : Store Nat Block) : Pc → Prop
  | .readHead => True
  | .install tail => s.lh.n = headCount g s.disk ∧
      (∀ i < s.lh.n, s.lh.block i = headBlock g s.disk i) ∧
      ∀ b, g.home b → Writes.apply s.disk ((logged g s.disk).drop tail) b = a.current b
  | .clear => ∀ b, g.home b → s.disk b = a.current b
  | .erase => s.lh.n = 0 ∧ ∀ b, g.home b → s.disk b = a.current b
  | .finish => s.lh.n = 0 ∧ headCount g s.disk = 0
  | _ => False

def Phase (g : Layout) (s : Sys) (a : Store Nat Block) : Prop :=
  match s.pc .boot, s.pc .endOp with
  | none, none => s.committing = false ∧ Gathering g s a
  | none, some pc => s.committing = true ∧ s.active = [] ∧ CommitPhase g s a pc
  | some pc, none => s.committing = false ∧ s.active = [] ∧ a.durable = a.history.length ∧
      (∀ b, ¬ s.DirtyAt b) ∧ BootPhase g s a pc
  | some _, some _ => False

/-- The simulation relation. Its field `recoverable` is what a crash at this point leaves. -/
structure Related (g : Layout) (s : Sys) (a : Store Nat Block) : Prop where
  ops : Ops g s a
  clean : s.Clean
  headerOk : HeaderOk g s.disk
  recoverable : ∀ b, g.home b → redo g s.disk b = a.committed b
  phase : Phase g s a

theorem Ops.of_quiet {t : Sys} (ops : Ops g s a) (quiet : Quiet s t) : Ops g t a := by
  refine ⟨?_, ?_, ?_, ops.durable, ?_, ?_⟩
  · rw [quiet.pc]; exact ops.noSync
  · rw [quiet.active]; exact ops.active
  · rw [quiet.outstanding, quiet.active]; exact ops.outstanding
  · rw [quiet.pending, quiet.active]; exact ops.pending
  · rw [quiet.lh]; exact ops.entriesHome

theorem Ops.setPc (ops : Ops g s a) {agent : Agent} (other : agent ≠ .sync) (pc : Option Pc) :
    Ops g (s.setPc agent pc) a := by
  refine ⟨?_, ops.active, ops.outstanding, ops.durable, ops.pending, ops.entriesHome⟩
  rw [Sys.setPc_pc, Function.update_of_ne other.symm]
  exact ops.noSync

theorem Ops.clear (ops : Ops g s a) : Ops g { s with lh := { s.lh with n := 0 } } a :=
  ⟨ops.noSync, ops.active, ops.outstanding, ops.durable, ops.pending, by simp⟩

theorem Ops.entriesWord (ops : Ops g s a) : ∀ i < s.lh.n, s.lh.block i < 2 ^ 32 :=
  fun i inside => (ops.entriesHome i inside).2

theorem Related.commit_phase (rel : Related g s a) (at_ : s.pc .endOp = some pc) :
    s.pc .boot = none ∧ s.committing = true ∧ s.active = [] ∧ CommitPhase g s a pc := by
  have phase := rel.phase
  unfold Phase at phase
  rw [at_] at phase
  cases boot : s.pc .boot with
  | none =>
    rw [boot] at phase
    exact ⟨rfl, phase⟩
  | some other =>
    rw [boot] at phase
    exact phase.elim

theorem Related.boot_phase (rel : Related g s a) (at_ : s.pc .boot = some pc) :
    s.pc .endOp = none ∧ s.committing = false ∧ s.active = [] ∧
      a.durable = a.history.length ∧ (∀ b, ¬ s.DirtyAt b) ∧ BootPhase g s a pc := by
  have phase := rel.phase
  unfold Phase at phase
  rw [at_] at phase
  cases commit : s.pc .endOp with
  | none =>
    rw [commit] at phase
    exact ⟨rfl, phase⟩
  | some other =>
    rw [commit] at phase
    exact phase.elim

theorem Related.idle_phase (rel : Related g s a) (boot : s.pc .boot = none)
    (commit : s.pc .endOp = none) :
    s.committing = false ∧ Gathering g s a := by
  have phase := rel.phase
  unfold Phase at phase
  rw [boot, commit] at phase
  exact phase

theorem phase_commit (boot : s.pc .boot = none) (commit : s.pc .endOp = some pc)
    (locked : s.committing = true) (alone : s.active = []) (holds : CommitPhase g s a pc) :
    Phase g s a := by
  unfold Phase
  rw [boot, commit]
  exact ⟨locked, alone, holds⟩

theorem phase_boot (boot : s.pc .boot = some pc) (commit : s.pc .endOp = none)
    (unlocked : s.committing = false) (alone : s.active = [])
    (durable : a.durable = a.history.length) (settled : ∀ b, ¬ s.DirtyAt b)
    (holds : BootPhase g s a pc) : Phase g s a := by
  unfold Phase
  rw [boot, commit]
  exact ⟨unlocked, alone, durable, settled, holds⟩

theorem phase_idle (boot : s.pc .boot = none) (commit : s.pc .endOp = none)
    (unlocked : s.committing = false) (holds : Gathering g s a) : Phase g s a := by
  unfold Phase
  rw [boot, commit]
  exact ⟨unlocked, holds⟩

/-- While the header on disk is empty, the home blocks on disk are the committed ones. -/
theorem Related.disk_of_empty (rel : Related g s a) (empty : headCount g s.disk = 0) {b : Nat}
    (home : g.home b) : s.disk b = a.committed b := by
  have same := rel.recoverable b home
  rwa [redo_of_empty empty] at same

end Xv6.Log
