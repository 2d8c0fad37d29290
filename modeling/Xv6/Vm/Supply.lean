import Xv6.Lib.Outcome
import Xv6.Vm.Model

/- How many free pages the copy of an address space takes. -/
namespace Xv6.Vm

open Outcome Function List

variable {m m' : Mem} {dir dir' source : Pgdir}

theorem kalloc_none (ran : kalloc m = (m', none)) : m' = m ∧ m.freelist = [] := by
  unfold kalloc at ran
  split at ran
  · rename_i empty
    cases ran
    exact ⟨rfl, empty⟩
  · cases ran

theorem kalloc_some {frame : Nat} (ran : kalloc m = (m', some frame)) :
    m.freelist = frame :: m'.freelist ∧ m'.page = m.page := by
  unfold kalloc at ran
  split at ran
  · cases ran
  · rename_i frame rest list
    cases ran
    exact ⟨list, rfl⟩

/-- The page tables that `copyuvm` needs for the pages from `v` to `stop`, when the one that `v` is
in the middle of exists. -/
def tables (v stop : Nat) :
    Nat := (stop + NPTENTRIES - 1) / NPTENTRIES - (v + NPTENTRIES - 1) / NPTENTRIES

/-- The free pages that `copyuvm` takes for a process of size `sz`. -/
def copySupply (sz : Nat) : Nat := 1 + KERNTABLES + pages sz + tables 0 (pages sz)

theorem setupkvmLoop_none {d count : Nat} (ran : setupkvmLoop d count m dir = .ok (m', none)) :
    m.freelist.length < count := by
  induction count generalizing m dir with
  | zero => cases ran
  | succ count ih =>
    unfold setupkvmLoop at ran
    split at ran
    · rename_i empty
      rw [(kalloc_none empty).2]
      exact Nat.succ_pos count
    · rename_i rest frame taken
      have shorter := ih ran
      rw [(kalloc_some taken).1, length_cons]
      exact Nat.succ_lt_succ shorter

theorem setupkvmLoop_some {d d' count : Nat}
    (ran : setupkvmLoop d count m dir = .ok (m', some (d', dir'))) :
    m.freelist.length = count + m'.freelist.length ∧ dir'.pgtab = dir.pgtab := by
  induction count generalizing m dir with
  | zero =>
    cases ran
    exact ⟨(Nat.zero_add _).symm, rfl⟩
  | succ count ih =>
    unfold setupkvmLoop at ran
    split at ran
    · obtain ⟨freed, _, ran⟩ := bind_eq_ok.mp ran
      cases ran
    rename_i rest frame taken
    obtain ⟨length, same⟩ := ih ran
    refine ⟨?_, same⟩
    have shorter : rest.freelist.length = count + m'.freelist.length := length
    rw [(kalloc_some taken).1, length_cons, shorter]
    omega

theorem setEntry_pgtab_isSome (dir : Pgdir) (v i : Nat) (pte : Option Pte) :
    ((dir.setEntry v pte).pgtab i).isSome = (dir.pgtab i).isSome := by
  unfold Pgdir.setEntry
  split
  · rfl
  rename_i table found
  dsimp only
  rw [update_apply]
  split
  · rename_i here
    rw [here, found]
    rfl
  · rfl

theorem setEntry_pgtab_of_ne (dir : Pgdir) {v i : Nat} (pte : Option Pte)
    (other : i ≠ v / NPTENTRIES) :
    (dir.setEntry v pte).pgtab i = dir.pgtab i := by
  unfold Pgdir.setEntry
  split
  · rfl
  · exact update_of_ne other _ _

/-- `mappages` takes a page where there is no page table. -/
theorem mappages_supply {v : Nat} {pte : Pte} {done : Bool}
    (ran : mappages m dir v pte = .ok (m', dir', done)) :
    (done = false → m.freelist = [] ∧ dir.pgtab (v / NPTENTRIES) = none) ∧
    (done = true → (dir'.pgtab (v / NPTENTRIES)).isSome ∧
      (∀ i, i ≠ v / NPTENTRIES → dir'.pgtab i = dir.pgtab i) ∧
      m.freelist.length = m'.freelist.length + (if (dir.pgtab (v / NPTENTRIES)).isSome then 0
        else 1)) := by
  unfold mappages walkpgdir at ran
  cases found : dir.pgtab (v / NPTENTRIES) with
  | some table =>
    rw [found] at ran
    dsimp only at ran
    split at ran
    · cases ran
    · cases ran
      refine ⟨Bool.noConfusion, fun _ => ⟨?_, fun i other => setEntry_pgtab_of_ne dir _ other, rfl⟩⟩
      rw [setEntry_pgtab_isSome, found]
      rfl
  | none =>
    rw [found] at ran
    dsimp only at ran
    split at ran
    · rename_i m₁ dir₁ walked
      cases ran
      split at walked
      · rename_i empty
        cases walked
        exact ⟨fun _ => ⟨(kalloc_none empty).2, rfl⟩, Bool.noConfusion⟩
      · cases walked
    · rename_i m₁ dir₁ walked
      split at ran
      · cases ran
      cases ran
      refine ⟨Bool.noConfusion, fun _ => ?_⟩
      split at walked
      · cases walked
      rename_i rest frame taken
      cases walked
      refine ⟨?_, fun i other => ?_, ?_⟩
      · rw [setEntry_pgtab_isSome]
        dsimp only
        rw [update_self]
        rfl
      · exact (setEntry_pgtab_of_ne _ _ other).trans (update_of_ne other _ _)
      · rw [(kalloc_some taken).1]
        rfl

/-- The copy fails only for want of pages. -/
theorem copyuvmLoop_none {sz d fuel v : Nat}
    (table : v % NPTENTRIES ≠ 0 → (dir.pgtab (v / NPTENTRIES)).isSome)
    (ran : copyuvmLoop source sz d fuel m dir v = .ok (m', none)) :
    m.freelist.length < fuel + tables v (v + fuel) := by
  induction fuel generalizing m dir v with
  | zero => cases ran
  | succ fuel ih =>
    unfold copyuvmLoop at ran
    split at ran
    · split at ran
      · cases ran
      split at ran
      · cases ran
      split at ran
      · rename_i empty
        rw [(kalloc_none empty).2]
        simp only [length_nil]
        omega
      rename_i rest frame taken
      have before : m.freelist.length = rest.freelist.length + 1 := by
        rw [(kalloc_some taken).1, length_cons]
      obtain ⟨⟨m₁, dir₁, done⟩, mapped, ran⟩ := bind_eq_ok.mp ran
      obtain ⟨fails, works⟩ := mappages_supply mapped
      cases done with
      | false =>
        obtain ⟨empty, missing⟩ := fails rfl
        have aligned : v % NPTENTRIES = 0 := by
          by_contra middle
          have there := table middle
          rw [missing] at there
          cases there
        have none : rest.freelist.length = 0 := by
          rw [show rest.freelist = [] from empty]
          rfl
        unfold tables NPTENTRIES
        unfold NPTENTRIES at aligned
        omega
      | true =>
        obtain ⟨there, _, length⟩ := works rfl
        have shorter := ih (v := v + 1) (by
          intro middle
          have same : (v + 1) / NPTENTRIES = v / NPTENTRIES := by
            unfold NPTENTRIES at middle ⊢
            omega
          rw [same]
          exact there) ran
        have length : rest.freelist.length = m₁.freelist.length +
          (if (dir.pgtab (v / NPTENTRIES)).isSome then 0 else 1) := length
        unfold tables NPTENTRIES at shorter ⊢
        by_cases aligned : v % 1024 = 0
        · split at length
          · omega
          · omega
        · rw [if_pos (table aligned)] at length
          omega
    · cases ran

/-- With enough free pages `copyuvm` does not return a null pointer. -/
theorem copyuvm_supply {sz : Nat} (enough : copySupply sz ≤ m.freelist.length)
    (ran : copyuvm m source sz = .ok (m', none)) : False := by
  unfold copySupply at enough
  unfold copyuvm at ran
  obtain ⟨⟨m₁, made⟩, setup, ran⟩ := bind_eq_ok.mp ran
  unfold setupkvm at setup
  split at setup
  · rename_i empty
    rw [(kalloc_none empty).2] at enough
    simp only [length_nil] at enough
    omega
  rename_i rest d taken
  have before : m.freelist.length = rest.freelist.length + 1 := by
    rw [(kalloc_some taken).1, length_cons]
  cases made with
  | none =>
    have short : rest.freelist.length < KERNTABLES :=
      setupkvmLoop_none (m := memset rest d 0) setup
    omega
  | some pair =>
    obtain ⟨d', dir⟩ := pair
    obtain ⟨length, same⟩ := setupkvmLoop_some setup
    have length : rest.freelist.length = KERNTABLES + m₁.freelist.length := length
    have short := copyuvmLoop_none (v := 0) (fun middle => absurd (Nat.zero_mod _) middle) ran
    rw [Nat.zero_add] at short
    omega

end Xv6.Vm
