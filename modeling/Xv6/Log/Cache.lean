import Xv6.Log.Model

/- What `bread` and `bwrite` do to the buffers. -/
namespace Xv6.Log.Sys

open Function Bytes

/-- A buffer that is not dirty holds what the disk holds. -/
def Clean (s : Sys) : Prop :=
  ∀ b buf, s.cache b = some buf → buf.dirty = false → buf.data = s.disk b

def DirtyAt (s : Sys) (b : Nat) : Prop := ∃ buf, s.cache b = some buf ∧ buf.dirty = true

theorem Clean.view_eq_disk {s : Sys} (clean : s.Clean) {b : Nat} (settled : ¬ s.DirtyAt b) :
    s.view b = s.disk b := by
  unfold view
  split
  · rename_i buf cached
    cases flag : buf.dirty with
    | false => exact clean b buf cached flag
    | true => exact absurd ⟨buf, cached, flag⟩ settled
  · rfl

section Bread

variable (s : Sys) (b c : Nat)

@[simp] theorem bread_disk : (s.bread b).disk = s.disk := by unfold bread; split <;> rfl
@[simp] theorem bread_outstanding : (s.bread b).outstanding = s.outstanding := by
  unfold bread; split <;> rfl
@[simp] theorem bread_committing : (s.bread b).committing = s.committing := by
  unfold bread; split <;> rfl
@[simp] theorem bread_lh : (s.bread b).lh = s.lh := by unfold bread; split <;> rfl
@[simp] theorem bread_pc : (s.bread b).pc = s.pc := by unfold bread; split <;> rfl
@[simp] theorem bread_active : (s.bread b).active = s.active := by unfold bread; split <;> rfl
@[simp] theorem bread_pending : (s.bread b).pending = s.pending := by unfold bread; split <;> rfl
@[simp] theorem bread_wrote : (s.bread b).wrote = s.wrote := by unfold bread; split <;> rfl
@[simp] theorem bread_settled : (s.bread b).settled = s.settled := by unfold bread; split <;> rfl

theorem bread_cache_of_ne (apart : c ≠ b) : (s.bread b).cache c = s.cache c := by
  unfold bread
  split
  · rfl
  · exact update_of_ne apart _ _

@[simp] theorem bread_view : (s.bread b).view c = s.view c := by
  by_cases same : c = b
  · subst same
    cases cached : s.cache c with
    | some buf => simp only [bread, cached]
    | none => simp only [bread, cached, view, update_self]
  · simp only [view, bread_cache_of_ne s b c same, bread_disk]

@[simp] theorem bread_dirtyAt : (s.bread b).DirtyAt c ↔ s.DirtyAt c := by
  by_cases same : c = b
  · subst same
    cases cached : s.cache c with
    | some buf => simp only [bread, cached, DirtyAt]
    | none => simp [bread, cached, DirtyAt]
  · simp only [DirtyAt, bread_cache_of_ne s b c same]

end Bread

theorem Clean.bread {s : Sys} (clean : s.Clean) (b : Nat) : (s.bread b).Clean := by
  intro c buf cached flag
  by_cases same : c = b
  · subst same
    cases old : s.cache c with
    | some before =>
      simp only [Sys.bread, old] at cached ⊢
      exact clean c buf (old.trans cached) flag
    | none =>
      simp only [Sys.bread, old, update_self, Option.some.injEq] at cached ⊢
      rw [← cached]
  · rw [bread_cache_of_ne s b c same] at cached
    rw [bread_disk]
    exact clean c buf cached flag

section Bwrite

variable (s : Sys) (b c : Nat) (data : Block)

@[simp] theorem bwrite_disk : (s.bwrite b data).disk = update s.disk b data := rfl
@[simp] theorem bwrite_outstanding : (s.bwrite b data).outstanding = s.outstanding := rfl
@[simp] theorem bwrite_committing : (s.bwrite b data).committing = s.committing := rfl
@[simp] theorem bwrite_lh : (s.bwrite b data).lh = s.lh := rfl
@[simp] theorem bwrite_pc : (s.bwrite b data).pc = s.pc := rfl
@[simp] theorem bwrite_active : (s.bwrite b data).active = s.active := rfl
@[simp] theorem bwrite_pending : (s.bwrite b data).pending = s.pending := rfl
@[simp] theorem bwrite_wrote : (s.bwrite b data).wrote = s.wrote := rfl
@[simp] theorem bwrite_settled : (s.bwrite b data).settled = s.settled := rfl

theorem bwrite_view : (s.bwrite b data).view c = if c = b then data else s.view c := by
  by_cases same : c = b
  · subst same
    simp [view, bwrite]
  · simp [view, bwrite, same]

theorem bwrite_dirtyAt : (s.bwrite b data).DirtyAt c ↔ c ≠ b ∧ s.DirtyAt c := by
  by_cases same : c = b
  · subst same
    simp [DirtyAt, bwrite]
  · simp [DirtyAt, bwrite, same]

end Bwrite

theorem Clean.bwrite {s : Sys} (clean : s.Clean) (b : Nat) (data : Block) :
    (s.bwrite b data).Clean := by
  intro c buf cached flag
  by_cases same : c = b
  · subst same
    simp only [Sys.bwrite, update_self, Option.some.injEq] at cached ⊢
    rw [← cached]
  · simp only [Sys.bwrite, update_of_ne same] at cached ⊢
    exact clean c buf cached flag

section SetPc

variable (s : Sys) (agent : Agent) (pc : Option Pc)

@[simp] theorem setPc_disk : (s.setPc agent pc).disk = s.disk := rfl
@[simp] theorem setPc_cache : (s.setPc agent pc).cache = s.cache := rfl
@[simp] theorem setPc_outstanding : (s.setPc agent pc).outstanding = s.outstanding := rfl
@[simp] theorem setPc_committing : (s.setPc agent pc).committing = s.committing := rfl
@[simp] theorem setPc_lh : (s.setPc agent pc).lh = s.lh := rfl
@[simp] theorem setPc_pc : (s.setPc agent pc).pc = update s.pc agent pc := rfl
@[simp] theorem setPc_active : (s.setPc agent pc).active = s.active := rfl
@[simp] theorem setPc_pending : (s.setPc agent pc).pending = s.pending := rfl
@[simp] theorem setPc_wrote : (s.setPc agent pc).wrote = s.wrote := rfl
@[simp] theorem setPc_settled : (s.setPc agent pc).settled = s.settled := rfl
@[simp] theorem setPc_view (b : Nat) : (s.setPc agent pc).view b = s.view b := rfl
@[simp] theorem setPc_dirtyAt (b : Nat) : (s.setPc agent pc).DirtyAt b ↔ s.DirtyAt b := Iff.rfl

theorem setPc_eq_some {other : Agent} {new : Pc} : (s.setPc agent pc).pc other = some new ↔
    other = agent ∧ pc = some new ∨ other ≠ agent ∧ s.pc other = some new := by
  rw [setPc_pc, update_apply]
  split
  · simp [*]
  · simp [*]

theorem Clean.setPc {s : Sys} (clean : s.Clean) (agent : Agent) (pc : Option Pc) :
    (s.setPc agent pc).Clean := clean

end SetPc

end Xv6.Log.Sys
