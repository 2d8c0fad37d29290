import Xv6.Vm.Total

/- `deallocuvm` at the addresses that the source computes, and as a loop over every page. -/
namespace Xv6.Vm

open Outcome List

variable {m : Mem} {dir : Pgdir} {oldsz newsz fuel v : Nat}

def PDX (va : Nat) : Nat := va / 2 ^ 22

/-- `PGADDR(d, 0, 0)`. -/
def PGADDR (d : Nat) : Nat := d * 2 ^ 22 % 2 ^ 32

def PGROUNDUP (sz : Nat) : Nat := (sz + PGSIZE - 1) % 2 ^ 32 / PGSIZE * PGSIZE

/-- The loop of `deallocuvm` from address `a` on. After the jump to `PGADDR(PDX(a) + 1, 0, 0) -
PGSIZE` comes the loop's own `a += PGSIZE`. -/
def deallocuvmFrom (oldsz : Nat) : Nat → Mem → Pgdir → Nat → Except Stop (Mem × Pgdir)
  | 0, m, dir, _ => .ok (m, dir)
  | fuel + 1, m, dir, a =>
    if a < oldsz then
      match dir.pgtab (PDX a) with
      | none =>
        let a := (PGADDR (PDX a + 1) + 2 ^ 32 - PGSIZE) % 2 ^ 32
        deallocuvmFrom oldsz fuel m dir ((a + PGSIZE) % 2 ^ 32)
      | some _ =>
        match dir.entry (a / PGSIZE) with
        | none => deallocuvmFrom oldsz fuel m dir ((a + PGSIZE) % 2 ^ 32)
        | some pte =>
          if pte.frame = 0 then .error .kfree
          else deallocuvmFrom oldsz fuel (kfree m pte.frame) (dir.setEntry (a / PGSIZE) none)
            ((a + PGSIZE) % 2 ^ 32)
    else .ok (m, dir)

def deallocuvmAt (fuel : Nat) (m : Mem) (dir : Pgdir) (oldsz newsz : Nat) :
    Except Stop (Mem × Pgdir × Nat) :=
  if newsz ≥ oldsz then .ok (m, dir, oldsz)
  else do
    let result ← deallocuvmFrom oldsz fuel m dir (PGROUNDUP newsz)
    .ok (result.1, result.2, newsz)

/-- Below `KERNBASE` no address wraps, so that addresses and page numbers run alike. -/
theorem deallocuvmFrom_eq (user : oldsz ≤ KERNBASE) :
    deallocuvmFrom oldsz fuel m dir (v * PGSIZE) = deallocuvmLoop oldsz fuel m dir v := by
  induction fuel generalizing m dir v with
  | zero => rfl
  | succ fuel ih =>
    unfold deallocuvmFrom deallocuvmLoop
    split
    · rename_i below
      have table : PDX (v * PGSIZE) = v / NPTENTRIES := by
        unfold PDX PGSIZE NPTENTRIES
        omega
      have next : (v * PGSIZE + PGSIZE) % 2 ^ 32 = (v + 1) * PGSIZE := by
        unfold PGSIZE KERNBASE at *
        omega
      have jump : ((PGADDR (v / NPTENTRIES + 1) + 2 ^ 32 - PGSIZE) % 2 ^ 32 + PGSIZE) % 2 ^ 32 =
          (v / NPTENTRIES + 1) * NPTENTRIES * PGSIZE := by
        unfold PGADDR PGSIZE NPTENTRIES KERNBASE at *
        omega
      dsimp only
      rw [table, next, jump, Nat.mul_div_cancel v (show 0 < PGSIZE by decide)]
      cases dir.pgtab (v / NPTENTRIES) with
      | none => exact ih
      | some _ =>
        cases dir.entry v with
        | none => exact ih
        | some pte => exact if_congr Iff.rfl rfl ih
    · rfl

theorem deallocuvmAt_eq (user : oldsz ≤ KERNBASE) (enough : pages oldsz ≤ fuel) :
    deallocuvmAt fuel m dir oldsz newsz = deallocuvm m dir oldsz newsz := by
  unfold deallocuvmAt deallocuvm
  split
  · rfl
  have start : PGROUNDUP newsz = pages newsz * PGSIZE := by
    unfold PGROUNDUP pages PGSIZE KERNBASE at *
    omega
  rw [start, deallocuvmFrom_eq user, deallocuvmLoop_eq (by omega), deallocuvmLoop_eq (by omega)]

/-- The entries lead to pages of their own that are not free. -/
structure Allotted (m : Mem) (dir : Pgdir) : Prop where
  real : dir.Real
  allocated : ∀ v pte, dir.entry v = some pte → pte.frame ∉ m.freelist
  distinct : ∀ v w f, (dir.entry v).map Pte.frame = some f → (dir.entry w).map Pte.frame = some f →
    v = w

theorem Allotted.frames_nodup (allotted : Allotted m dir) (count : Nat) :
    (dir.frames v count).Nodup := by
  apply List.Nodup.filterMap _ nodup_range'
  intro v w f first second
  exact allotted.distinct v w f first second

theorem Allotted.not_free (allotted : Allotted m dir) {count f : Nat}
    (member : f ∈ dir.frames v count) :
    f ∉ m.freelist := by
  obtain ⟨w, _, found⟩ := mem_filterMap.mp member
  obtain ⟨pte, present, rfl⟩ := Option.map_eq_some_iff.mp found
  exact allotted.allocated w pte present

/-- The walk with its jumps ends, as the loop over every page does: it clears the entries from
`PGROUNDUP(newsz)` on below `oldsz`, and puts the page of each on the free list once. -/
theorem deallocuvm_walks (allotted : Allotted m dir) (smaller : newsz ≤ oldsz)
    (user : oldsz ≤ KERNBASE) :
    ∃ m' dir',
      (∀ fuel, pages oldsz ≤ fuel → deallocuvmAt fuel m dir oldsz newsz = .ok (m', dir', newsz)) ∧
      unmapPages (pages oldsz - pages newsz) m dir (pages newsz) = .ok (m', dir') ∧
      (∀ w, dir'.entry w = if PGROUNDUP newsz ≤ w * PGSIZE ∧ w * PGSIZE < oldsz then none
        else dir.entry w) ∧
      ∃ freed, m'.freelist = freed ++ m.freelist ∧ freed.Nodup ∧ (∀ f ∈ freed, f ∉ m.freelist) ∧
        ∀ f, f ∈ freed ↔ ∃ w, PGROUNDUP newsz ≤ w * PGSIZE ∧ w * PGSIZE < oldsz ∧
          (dir.entry w).map Pte.frame = some f := by
  have bounds : ∀ w, PGROUNDUP newsz ≤ w * PGSIZE ∧ w * PGSIZE < oldsz ↔
      pages newsz ≤ w ∧ w < pages newsz + (pages oldsz - pages newsz) := by
    intro w
    unfold PGROUNDUP pages PGSIZE KERNBASE at *
    omega
  have ends : Returns _ (unmapPages (pages oldsz - pages newsz) m dir (pages newsz)) :=
    unmapPages_returns allotted.real
  obtain ⟨⟨m', dir'⟩, plain, _⟩ := ends.ok
  obtain ⟨_, list, entries⟩ := unmapPages_spec plain
  refine ⟨m', dir', fun fuel enough => ?_, plain, fun w => ?_, _, list, ?_, ?_, fun f => ?_⟩
  · rw [deallocuvmAt_eq user enough, deallocuvm_eq, plain, Nat.min_eq_right smaller]
    rfl
  · rw [entries w]
    simp only [bounds]
  · exact nodup_reverse.mpr (allotted.frames_nodup _)
  · exact fun f member => allotted.not_free (mem_reverse.mp member)
  · simp only [← and_assoc, bounds, mem_reverse, Pgdir.frames, mem_filterMap, mem_range'_1]

/-- One page between page tables that are missing. -/
def sparse : Pgdir where
  kernel := []
  pgtab i := if i = 1 then some ⟨1, fun j => if j = 7 then some ⟨2, true, true⟩ else none⟩ else none

theorem sparse_entry (v : Nat) : sparse.entry v = if v = 1031 then some ⟨2, true, true⟩
    else none := by
  unfold sparse Pgdir.entry NPTENTRIES
  dsimp only
  split
  · dsimp only [Option.bind]
    split <;> rw [eq_comm]
    · exact if_pos (by omega)
    · exact if_neg (by omega)
  · exact (if_neg (by omega)).symm

theorem sparse_allotted : Allotted ⟨[9], fun _ _ => 0⟩ sparse where
  real v pte present := by
    rw [sparse_entry] at present
    split at present <;> cases present
    decide
  allocated v pte present := by
    rw [sparse_entry] at present
    split at present <;> cases present
    decide
  distinct v w f first second := by
    rw [sparse_entry] at first second
    split at first <;> cases first
    split at second <;> cases second
    omega

theorem deallocuvm_walks_sparse : ∃ m' dir',
    deallocuvmAt 3000 ⟨[9], fun _ _ => 0⟩ sparse 0x900001 0x100 =
    .ok (m', dir', 0x100) ∧ dir'.entry 1031 = none ∧ 2 ∈ m'.freelist := by
  obtain ⟨m', dir', ends, _, entries, freed, list, _, _, which⟩ :=
    deallocuvm_walks sparse_allotted (show 0x100 ≤ 0x900001 by decide) (by decide)
  refine ⟨m', dir', ends 3000 (by decide), by rw [entries]; rfl, ?_⟩
  rw [list]
  exact mem_append_left _ ((which 2).mpr ⟨1031, by decide, by decide, by rw [sparse_entry]; rfl⟩)

end Xv6.Vm
