import Xv6.Process.Exec
import Xv6.Vm.Copyout

/- The arguments that `exec` copies to the stack of the new image. -/
namespace Xv6.Process

open Outcome Vm

variable {m m' : Mem} {dir : Pgdir} {argv : List (List UInt8)} {cell : Nat × Nat}

theorem pushStack_kept {sz : Nat} {done : Bool} (foreign : ∀ va, dir.user va ≠ some cell)
    (ran : pushStack m dir sz argv = .ok (m', done)) :
    m'.page cell.1 cell.2 = m.page cell.1 cell.2 :=
  pushStack_rel (R := fun m m' => m'.page cell.1 cell.2 = m.page cell.1 cell.2) (fun _ => rfl)
    (fun first second => second.trans first)
    (fun low copied => (copied_of_copyout low copied).2.kept cell fun _ _ => foreign _) ran

/-- `copyout` does what it has to if and only if the first page that is not the user's, if there is
one, has a page table. The stack of `exec` is written to pages of the user only. -/
theorem copyout_exact (dir : Pgdir) (m : Mem) :
    (∀ va bytes, va < 2 ^ 32 →
      ((∃ m' done, copyout m dir va bytes = .ok (m', done) ∧ Copied dir va bytes m m' done) ↔
        Tabled dir va bytes.length)) ∧
    ∀ sz argv m' done, pushStack m dir sz argv = .ok (m', done) →
      ∀ cell, (∀ va, dir.user va ≠ some cell) → m'.page cell.1 cell.2 = m.page cell.1 cell.2 := by
  refine ⟨fun va bytes low => ⟨?_, (copyoutLoop_spec low (Nat.le_refl _)).1⟩, ?_⟩
  · rintro ⟨m', done, ran, _⟩
    exact (copied_of_copyout low ran).1
  · exact fun sz argv m' done ran cell foreign => pushStack_kept foreign ran

/-- A guard page and a stack. -/
def stackImage : Pgdir :=
  ⟨[], fun i => if i = 0 then some ⟨9, fun v => if v < 2 then some ⟨v + 5, true, v = 1⟩ else none⟩
      else none⟩

theorem copyout_exact_stack : ∃ m' done,
    copyout ⟨[], fun _ _ => 0⟩ stackImage 8190 [1, 2] = .ok (m', done) ∧
    Copied stackImage 8190 [1, 2] ⟨[], fun _ _ => 0⟩ m' done := by
  refine ((copyout_exact stackImage _).1 8190 [1, 2] (by decide)).mpr fun j inside _ => ?_
  rcases show j = 0 ∨
    j = 1 by exact Nat.le_one_iff_eq_zero_or_eq_one.mp (Nat.le_of_lt_succ inside) with rfl | rfl
  all_goals exact Option.some_ne_none _

theorem pushStack_stops {arg : List UInt8} {rest : List (List UInt8)} {sz : Nat}
    (missing : dir.pgtab ((sz + 2 ^ 32 - (arg.length + 1)) % 2 ^ 32 / 4 * 4 / PGSIZE / NPTENTRIES) =
      none) :
    pushStack m dir sz (arg :: rest) = .error .undefined := by
  have low : (sz + 2 ^ 32 - (arg.length + 1)) % 2 ^ 32 / 4 * 4 < 2 ^ 32 := by omega
  have stops : copyout m dir ((sz + 2 ^ 32 - (arg.length + 1)) % 2 ^ 32 / 4 * 4) (arg ++ [0]) =
      .error .undefined := by
    refine (copyoutLoop_spec low (Nat.le_refl _)).2 fun tabled => ?_
    refine tabled 0 ?_ (fun i less => absurd less (Nat.not_lt_zero i)) ?_
    · rw [List.length_append]
      exact Nat.succ_pos _
    · rwa [Nat.add_zero, Nat.mod_eq_of_lt low]
  unfold pushStack pushArgs
  rw [if_neg (by decide)]
  dsimp only
  rw [stops]
  rfl

/-- The first page that is asked for has no page table; and an argument of 32 megabytes takes the
stack pointer below the devices, where no image has one. -/
theorem copyout_stops :
    copyout ⟨[], fun _ _ => 0⟩ ⟨[], fun _ => none⟩ 0 [1] = .error .undefined ∧
    pushStack ⟨[], fun _ _ => 0⟩ stackImage 8192 [List.replicate (2 ^ 25 + 12287) 97] =
      .error .undefined := by
  refine ⟨rfl, pushStack_stops ?_⟩
  rw [List.length_replicate]
  rfl

end Xv6.Process
