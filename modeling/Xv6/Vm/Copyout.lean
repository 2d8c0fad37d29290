import Xv6.Vm.Total

/- `copyout` through a page table. Its address wraps around at the end of the address space. -/
namespace Xv6.Vm

open Function Option List

variable {m m' : Mem} {dir : Pgdir} {va : Nat} {bytes : List UInt8}

/-- The page of the user that page `v` is mapped to. -/
def Pgdir.userPage (dir : Pgdir) (v : Nat) : Option Nat :=
  (dir.entry v).bind fun pte => if pte.user then some pte.frame else none

/-- The byte of such a page behind a virtual address. -/
def Pgdir.user (dir : Pgdir) (va : Nat) : Option (Nat × Nat) :=
  (dir.userPage (va % 2 ^ 32 / PGSIZE)).map fun frame => (frame, va % PGSIZE)

/-- `copyout` works if and only if every address belongs to the user. Then each byte that no later
one overwrites is in its place; bytes that are not addressed stay in any case. -/
structure Copied (dir : Pgdir) (va : Nat) (bytes : List UInt8) (m m' : Mem)
    (done : Bool) : Prop where
  whole : done = true ↔ ∀ j < bytes.length, dir.user (va + j) ≠ none
  stored : done = true → ∀ j byte cell, bytes[j]? = some byte → dir.user (va + j) = some cell →
    (∀ i, j < i → i < bytes.length → dir.user (va + i) ≠ some cell) → m'.page cell.1 cell.2 = byte
  kept : ∀ cell, (∀ j < bytes.length, dir.user (va + j) ≠ some cell) →
    m'.page cell.1 cell.2 = m.page cell.1 cell.2
  freelist : m'.freelist = m.freelist

/-- There are page tables up to the first address that does not belong to the user, and for it. -/
def Tabled (dir : Pgdir) (va count : Nat) : Prop :=
  ∀ j < count, (∀ i < j, dir.user (va + i) ≠ none) →
    dir.pgtab ((va + j) % 2 ^ 32 / PGSIZE / NPTENTRIES) ≠ none

/-- The address after the last of a page. -/
def nextPage (va : Nat) : Nat := (va / PGSIZE + 1) * PGSIZE % 2 ^ 32

theorem page_near {j : Nat} (low : va < 2 ^ 32) (near : j < PGSIZE - va % PGSIZE) :
    (va + j) % 2 ^ 32 / PGSIZE = va / PGSIZE ∧ (va + j) % PGSIZE = va % PGSIZE + j := by
  unfold PGSIZE at *
  omega

theorem user_near {j : Nat} (low : va < 2 ^ 32) (near : j < PGSIZE - va % PGSIZE) :
    dir.user (va + j) = (dir.userPage (va / PGSIZE)).map fun frame => (frame, va % PGSIZE + j) := by
  unfold Pgdir.user
  rw [(page_near low near).1, (page_near low near).2]

theorem page_next (va j : Nat) :
    (va + (PGSIZE - va % PGSIZE + j)) % 2 ^ 32 = (nextPage va + j) % 2 ^ 32 := by
  unfold nextPage PGSIZE
  omega

theorem user_next (va j : Nat) :
    dir.user (va + (PGSIZE - va % PGSIZE + j)) = dir.user (nextPage va + j) := by
  have same : (va + (PGSIZE - va % PGSIZE + j)) % PGSIZE = (nextPage va + j) % PGSIZE := by
    have := page_next va j
    unfold PGSIZE at *
    omega
  unfold Pgdir.user
  rw [page_next, same]

theorem copied_nil (m : Mem) : Copied dir va [] m m true := by
  refine ⟨iff_of_true rfl fun _ inside => absurd inside (Nat.not_lt_zero _), ?_,
      fun _ _ => rfl, rfl⟩
  intro _ j byte cell found
  cases found

section Round

variable {frame : Nat} (low : va < 2 ^ 32) (page : dir.userPage (va / PGSIZE) = some frame)
include low page

/-- After a page of the user the tables are those of the rest. -/
theorem tabled_next (table : dir.pgtab (va / PGSIZE / NPTENTRIES) ≠ none) (count : Nat) :
    Tabled dir va count ↔ Tabled dir (nextPage va) (count - min (PGSIZE - va % PGSIZE) count) := by
  constructor
  · intro tabled j inside before
    have here := tabled (PGSIZE - va % PGSIZE + j) (by omega) fun i less => ?_
    · rwa [page_next] at here
    by_cases near : i < PGSIZE - va % PGSIZE
    · rw [user_near low near, page]
      exact some_ne_none _
    · obtain ⟨rest, rfl⟩ := Nat.exists_eq_add_of_le (Nat.le_of_not_lt near)
      rw [user_next]
      exact before rest (by omega)
  · intro tabled j inside before
    by_cases near : j < PGSIZE - va % PGSIZE
    · rwa [(page_near low near).1]
    · obtain ⟨rest, rfl⟩ := Nat.exists_eq_add_of_le (Nat.le_of_not_lt near)
      rw [page_next]
      refine tabled rest (by omega) fun i less => ?_
      rw [← user_next]
      exact before _ (by omega)

/-- The bytes of one page, and then the rest. -/
theorem copied_next {m₁ : Mem} {done : Bool} {n : Nat}
    (isMin : n = min (PGSIZE - va % PGSIZE) bytes.length) (list : m₁.freelist = m.freelist)
    (others : ∀ f, f ≠ frame → m₁.page f = m.page f)
    (written : ∀ i, m₁.page frame i = if va % PGSIZE ≤ i ∧ i < va % PGSIZE + n
      then bytes.getD (i - va % PGSIZE) 0 else m.page frame i)
    (rest : Copied dir (nextPage va) (bytes.drop n) m₁ m' done) :
    Copied dir va bytes m m' done := by
  have near : ∀ j < n, dir.user (va + j) = some (frame, va % PGSIZE + j) := by
    intro j less
    rw [user_near low (by omega), page]
    rfl
  have far : ∀ j, n ≤ j → j < bytes.length →
      dir.user (va + j) = dir.user (nextPage va + (j - n)) := by
    intro j le inside
    rw [← user_next]
    congr 2
    omega
  refine ⟨rest.whole.trans ⟨fun all j inside => ?_, fun all j inside => ?_⟩,
    fun isDone j byte cell found here last => ?_, fun cell free => ?_, rest.freelist.trans list⟩
  · by_cases less : j < n
    · rw [near j less]
      exact some_ne_none _
    · rw [far j (by omega) inside]
      exact all _ (by rw [length_drop]; omega)
  · rw [length_drop] at inside
    have there := all (n + j) (by omega)
    rwa [far _ (by omega) (by omega), Nat.add_sub_cancel_left] at there
  · have inside : j < bytes.length := (List.getElem?_eq_some_iff.mp found).1
    by_cases less : j < n
    · rw [rest.kept cell fun i more => ?_]
      · cases (near j less).symm.trans here
        rw [written, if_pos (by omega), Nat.add_sub_cancel_left, getD_eq_getElem?_getD, found]
        rfl
      · rw [length_drop] at more
        have there := last (n + i) (by omega) (by omega)
        rwa [far _ (by omega) (by omega), Nat.add_sub_cancel_left] at there
    · refine rest.stored isDone (j - n) byte cell ?_ ?_ fun i more bound => ?_
      · rw [getElem?_drop, Nat.add_sub_cancel' (by omega)]
        exact found
      · rwa [← far j (by omega) inside]
      · rw [length_drop] at bound
        have there := last (n + i) (by omega) (by omega)
        rwa [far _ (by omega) (by omega), Nat.add_sub_cancel_left] at there
  · rw [rest.kept cell fun j more => ?_]
    · by_cases here : cell.1 = frame
      · rw [here, written, if_neg]
        rintro ⟨lower, upper⟩
        refine free (cell.2 - va % PGSIZE) (by omega) ?_
        rw [near _ (by omega), ← here, Nat.add_sub_cancel' lower]
      · rw [others _ here]
    · rw [length_drop] at more
      have there := free (n + j) (by omega)
      rwa [far _ (by omega) (by omega), Nat.add_sub_cancel_left] at there

end Round

/-- `copyout` stops the kernel at a page table that does not exist. -/
theorem copyoutLoop_spec {fuel : Nat} (low : va < 2 ^ 32) (enough : bytes.length ≤ fuel) :
    (Tabled dir va bytes.length →
      ∃ m' done, copyoutLoop dir fuel m va bytes = .ok (m', done) ∧ Copied dir va bytes m m' done) ∧
    (¬ Tabled dir va bytes.length → copyoutLoop dir fuel m va bytes = .error .undefined) := by
  have empty : ∀ dir va, Tabled dir va 0 := fun _ _ _ inside => absurd inside (Nat.not_lt_zero _)
  induction fuel generalizing m va bytes with
  | zero =>
    cases eq_nil_of_length_eq_zero (Nat.le_zero.mp enough)
    exact ⟨fun _ => ⟨m, true, rfl, copied_nil m⟩, fun missing => absurd (empty dir va) missing⟩
  | succ fuel ih =>
    unfold copyoutLoop
    split
    · rename_i more
      have first : (∀ i < 0, dir.user (va + i) ≠ none) := fun _ less =>
        absurd less (Nat.not_lt_zero _)
      cases table : dir.pgtab (va / PGSIZE / NPTENTRIES) with
      | none =>
        have stops : uva2ka dir (va / PGSIZE) = .error .undefined := by
          unfold uva2ka
          rw [table]
        rw [stops]
        refine ⟨fun tabled => absurd ?_ (tabled 0 more first), fun _ => rfl⟩
        rwa [Nat.add_zero, Nat.mod_eq_of_lt low]
      | some tab =>
        have goes : uva2ka dir (va / PGSIZE) = .ok (dir.userPage (va / PGSIZE)) := by
          unfold uva2ka
          rw [table]
          rfl
        rw [goes]
        cases page : dir.userPage (va / PGSIZE) with
        | none =>
          have absent : ∀ j < PGSIZE - va % PGSIZE, dir.user (va + j) = none := by
            intro j near
            rw [user_near low near, page]
            rfl
          have start : 0 < PGSIZE - va % PGSIZE := Nat.sub_pos_of_lt (Nat.mod_lt _ (by decide))
          refine ⟨fun _ => ⟨m, false, rfl, ?_, fun isDone => absurd isDone Bool.false_ne_true,
            fun _ _ => rfl, rfl⟩,
            fun missing => absurd (fun j inside before => ?_) missing⟩
          · exact iff_of_false Bool.false_ne_true fun all => all 0 more (absent 0 start)
          · by_cases near : j < PGSIZE - va % PGSIZE
            · rw [(page_near low near).1, table]
              exact some_ne_none _
            · exact absurd (absent 0 start) (before 0 (by omega))
        | some frame =>
          have same := tabled_next low page (table ▸ some_ne_none tab) bytes.length
          rw [← length_drop] at same
          rw [same]
          have shorter : (bytes.drop (min (PGSIZE - va % PGSIZE) bytes.length)).length ≤ fuel := by
            rw [length_drop]
            unfold PGSIZE
            omega
          have next : nextPage va < 2 ^ 32 := Nat.mod_lt _ (by decide)
          refine ⟨fun tabled => ?_, (ih next shorter).2⟩
          obtain ⟨m', done, ran, copied⟩ := (ih next shorter).1 tabled
          refine ⟨m', done, ran, copied_next low page rfl ?_ ?_ ?_ copied⟩
          · rfl
          · exact fun f other => update_of_ne other _ _
          · exact congrFun (update_self _ _ _)
    · rename_i none
      cases eq_nil_of_length_eq_zero (Nat.eq_zero_of_not_pos none)
      exact ⟨fun _ => ⟨m, true, rfl, copied_nil m⟩, fun missing => absurd (empty dir va) missing⟩

theorem copied_of_copyout {done : Bool} (low : va < 2 ^ 32)
    (ran : copyout m dir va bytes = .ok (m', done)) :
    Tabled dir va bytes.length ∧ Copied dir va bytes m m' done := by
  obtain ⟨returns, stops⟩ := @copyoutLoop_spec m dir va bytes _ low (Nat.le_refl _)
  by_cases tabled : Tabled dir va bytes.length
  · obtain ⟨m₁, done₁, ran₁, copied⟩ := returns tabled
    cases ran.symm.trans ran₁
    exact ⟨tabled, copied⟩
  · cases ran.symm.trans (stops tabled)

theorem pgtab_of_user (found : dir.user va ≠ none) :
    dir.pgtab (va % 2 ^ 32 / PGSIZE / NPTENTRIES) ≠ none := by
  intro missing
  unfold Pgdir.user Pgdir.userPage at found
  rw [entry_of_none missing] at found
  exact found rfl

theorem copyout_returns (low : va < 2 ^ 32) (user : ∀ j < bytes.length, dir.user (va + j) ≠ none) :
    ∃ m', copyout m dir va bytes = .ok (m', true) := by
  obtain ⟨m', done, ran, copied⟩ := (copyoutLoop_spec low (Nat.le_refl _)).1 fun j inside _ =>
    pgtab_of_user (user j inside)
  cases copied.whole.mpr user
  exact ⟨m', ran⟩

end Xv6.Vm
