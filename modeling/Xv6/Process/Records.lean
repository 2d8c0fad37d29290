import Xv6.Process.Calls

/- What calls leave in the record of a process: its pid, its size, the stacks that were given back
and the values that its threads left. -/
namespace Xv6.Process

open Function

variable {k t : Kernel} {p q master : Nat} {old middle new : Proc}

structure SameRecord (old new : Proc) : Prop where
  pid : new.pid = old.pid
  sz : new.sz = old.sz
  freeusrspace : new.freeusrspace = old.freeusrspace
  retvals : new.retvals = old.retvals

theorem SameRecord.refl (old : Proc) : SameRecord old old := ⟨rfl, rfl, rfl, rfl⟩

theorem SameRecord.trans (first : SameRecord old middle) (second : SameRecord middle new) :
    SameRecord old new :=
  ⟨second.pid.trans first.pid, second.sz.trans first.sz,
    second.freeusrspace.trans first.freeusrspace, second.retvals.trans first.retvals⟩

theorem SameRecord.set (before : SameRecord old (k.proc q)) (same : SameRecord (k.proc p) new) :
    SameRecord old ((k.setProc p new).proc q) := by
  rw [setProc_proc, update_apply]
  split
  · rename_i here
    rw [here] at before
    exact before.trans same
  · exact before

theorem Bystander.record (given : Bystander p old new) : SameRecord old new := by
  obtain ⟨parent, state, same, _⟩ := given
  rw [same]
  exact ⟨rfl, rfl, rfl, rfl⟩

theorem wakeup1_record (k : Kernel) (chan : Option Chan) (q : Nat) :
    SameRecord (k.proc q) ((wakeup1 k chan).proc q) :=
  (wakeup1_bystander 0 k chan q).record

theorem kill_record (k : Kernel) (pid q : Nat) : SameRecord (k.proc q) ((kill k pid).1.proc q) := by
  obtain ⟨killed, state, same, _⟩ := kill_slot k pid q
  rw [same]
  exact ⟨rfl, rfl, rfl, rfl⟩

theorem exit_record (ran : exit k p = .ok t) (q : Nat) : SameRecord (k.proc q) (t.proc q) := by
  obtain ⟨v, fqtick, _, _, bystander, slot⟩ := exit_slot ran
  rw [slot q]
  exact (bystander q).record.trans ⟨rfl, rfl, rfl, rfl⟩

theorem thread_exit_record {retval : Nat} (link : (k.proc p).master = some master)
    (ran : thread_exit k p retval = .ok t) :
    (∀ q, q ≠ master → SameRecord (k.proc q) (t.proc q)) ∧
    SameRecord { k.proc master with
      retvals := update (k.proc master).retvals (k.proc p).tindex retval } (t.proc master) := by
  obtain ⟨v, _, bystander, slot⟩ := thread_exit_slot link ran
  constructor
  · intro q other
    rw [slot q, if_neg other]
    exact (bystander q).record.trans ⟨rfl, rfl, rfl, rfl⟩
  · have before := (bystander master).record
    rw [slot master, if_pos rfl, before.retvals]
    exact ⟨before.pid, before.sz, before.freeusrspace, rfl⟩

end Xv6.Process
