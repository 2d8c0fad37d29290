import Xv6.Vm.Frames

/- Calls on address spaces that do not stop the kernel. Page number zero is no page. -/
namespace Xv6.Vm

open Function Outcome Pool List

variable {m m' : Mem} {d v : Nat} {dir dir' source : Pgdir} {oldsz fuel newsz sz : Nat}

/-- No entry leads to page zero. -/
def Pgdir.Real (dir : Pgdir) : Prop := ∀ v pte, dir.entry v = some pte → pte.frame ≠ 0

/-- The call returns a value with `post`. -/
abbrev Returns {A : Type} (post : A → Prop) : Except Stop A → Prop := Ends (fun _ => False) post

theorem Returns.ok {A : Type} {post : A → Prop} {outcome : Except Stop A}
    (ends : Returns post outcome) :
    ∃ a, outcome = .ok a ∧ post a := by
  cases outcome with
  | error stop => exact ends.elim
  | ok a => exact ⟨a, rfl, ends⟩

theorem Pgdir.Real.congr (real : dir.Real) (same : ∀ w, dir'.entry w = dir.entry w) :
    dir'.Real := by
  intro w pte found
  rw [same w] at found
  exact real w pte found

/-- No page gets lost, and page tables stay where they are. -/
structure Keeps (m : Mem) (dir : Pgdir) (m' : Mem) (dir' : Pgdir) : Prop where
  kernel : dir'.kernel = dir.kernel
  tables : ∀ i f, frameOf 0 dir (.table i) = some f → frameOf 0 dir' (.table i) = some f
  pool : ∀ f, Has m.freelist (frameOf 0 dir) f → Has m'.freelist (frameOf 0 dir') f

theorem Keeps.refl (m : Mem) (dir : Pgdir) : Keeps m dir m dir := ⟨rfl, fun _ _ => id, fun _ => id⟩

theorem Keeps.trans {m₁ : Mem} {dir₁ : Pgdir} (first : Keeps m dir m₁ dir₁)
    (second : Keeps m₁ dir₁ m' dir') :
    Keeps m dir m' dir' :=
  ⟨second.kernel.trans first.kernel, fun i f found => second.tables i f (first.tables i f found),
    fun f has => second.pool f (first.pool f has)⟩

theorem keeps_setEntry {table : Pgtab} {pte : Option Pte}
    (there : dir.pgtab (v / NPTENTRIES) = some table)
    (pool : ∀ f, Has m.freelist (frameOf 0 dir) f →
      Has m'.freelist (update (frameOf 0 dir) (.page v) (pte.map Pte.frame)) f) :
    Keeps m dir m' (dir.setEntry v pte) := by
  have uses := frameOf_setEntry 0 there pte
  refine ⟨?_, fun i f found => ?_, fun f has => ?_⟩
  · unfold Pgdir.setEntry
    rw [there]
  · rw [uses, update_of_ne SpaceUse.noConfusion]
    exact found
  · rw [uses]
    exact pool f has

theorem keeps_unmap {pte : Pte} (found : dir.entry v = some pte) :
    Keeps m dir (kfree m pte.frame) (dir.setEntry v none) := by
  cases there : dir.pgtab (v / NPTENTRIES) with
  | none =>
    rw [entry_of_none there] at found
    cases found
  | some table =>
    have used : frameOf 0 dir (.page v) = some pte.frame := congrArg (Option.map Pte.frame) found
    exact keeps_setEntry there fun f has => has.give used

/-- Pages go back to the free list, and only they are written to. -/
structure Frees (m : Mem) (dir : Pgdir) (m' : Mem) (dir' : Pgdir) : Prop where
  list : m.freelist ⊆ m'.freelist
  bytes : ∀ f, f ∉ m'.freelist → m'.page f = m.page f
  keeps : Keeps m dir m' dir'

theorem Frees.refl (m : Mem) (dir : Pgdir) : Frees m dir m dir :=
    ⟨fun _ => id, fun _ _ => rfl, .refl m dir⟩

theorem Frees.trans {m₁ : Mem} {dir₁ : Pgdir} (first : Frees m dir m₁ dir₁)
    (second : Frees m₁ dir₁ m' dir') :
    Frees m dir m' dir' :=
  ⟨fun _ member => second.list (first.list member),
    fun f used => (second.bytes f used).trans (first.bytes f fun member =>
      used (second.list member)),
    first.keeps.trans second.keeps⟩

theorem frees_unmap {pte : Pte} (found : dir.entry v = some pte) :
    Frees m dir (kfree m pte.frame) (dir.setEntry v none) := by
  refine ⟨fun _ => mem_cons_of_mem _, fun f used => update_of_ne ?_ _ _, keeps_unmap found⟩
  exact (not_or.mp (mt mem_cons.mpr used)).1

theorem unmapPages_returns {count : Nat} (real : dir.Real) :
    Returns (fun result => Frees m dir result.1 result.2) (unmapPages count m dir v) := by
  induction count generalizing m dir v with
  | zero => exact Frees.refl m dir
  | succ count ih =>
    unfold unmapPages
    split
    · exact ih real
    rename_i pte present
    rw [if_neg (real v pte present)]
    refine (ih fun w found there => ?_).mono fun _ => (frees_unmap present).trans
    rw [(unmap_spec (m := m) present).2 w] at there
    split at there
    · cases there
    · exact real w found there

theorem deallocuvm_returns (real : dir.Real) :
    Returns (fun result => Frees m dir result.1 result.2.1) (deallocuvm m dir oldsz newsz) := by
  rw [deallocuvm_eq]
  exact (unmapPages_returns real).bind fun _ frees => frees

theorem freevm_returns (real : dir.Real) : Returns (fun _ => True) (freevm m d dir) := by
  unfold freevm
  exact (deallocuvm_returns real).bind fun _ _ => trivial

theorem setupkvmLoop_returns {count : Nat} (real : dir.Real) :
    Returns (fun _ => True) (setupkvmLoop d count m dir) := by
  induction count generalizing m dir with
  | zero => trivial
  | succ count ih =>
    unfold setupkvmLoop
    split
    · exact (freevm_returns real).bind fun _ _ => trivial
    · exact ih (real.congr fun _ => rfl)

theorem setupkvm_returns : Returns (fun _ => True) (setupkvm m) := by
  unfold setupkvm
  split
  · trivial
  · exact setupkvmLoop_returns fun _ _ found => by cases found

/-- An entry that is not present can be filled. -/
theorem mappages_returns {pte : Pte} (absent : dir.entry v = none) :
    Returns (fun _ => True) (mappages m dir v pte) := by
  unfold mappages
  split
  · trivial
  · rename_i m₁ dir₁ walked
    rw [(walkpgdir_spec walked).2.1 v, absent]
    trivial

/-- The pages of the source are there to be copied, and those of the copy are not. -/
theorem copyuvmLoop_returns (covers : source.Covers sz) (real : dir.Real)
    (absent : ∀ w, v ≤ w → dir.entry w = none) (null : 0 ∉ m.freelist) :
    Returns (fun _ => True) (copyuvmLoop source sz d fuel m dir v) := by
  induction fuel generalizing m dir v with
  | zero => trivial
  | succ fuel ih =>
    unfold copyuvmLoop
    split
    · rename_i below
      rw [lt_pages] at below
      have present := covers v below
      split
      · rename_i missing
        exact present (entry_of_none missing)
      split
      · exact present ‹_›
      rename_i pte found
      split
      · exact (freevm_returns real).bind fun _ _ => trivial
      rename_i m₁ frame taken
      obtain ⟨list, _⟩ := kalloc_some taken
      rw [list, mem_cons, not_or] at null
      apply (mappages_returns (absent v (Nat.le_refl v))).result.bind
      intro result mapped
      obtain ⟨m₂, dir₂, done⟩ := result
      obtain ⟨works, fails⟩ := mappages_spec mapped
      cases done with
      | false => exact (freevm_returns (real.congr (fails rfl).2)).bind fun _ _ => trivial
      | true =>
        have entries := (works rfl).2.2
        apply ih
        · intro w pte' there
          rw [entries w] at there
          split at there
          · cases there
            exact fun isNull => null.1 isNull.symm
          · exact real w pte' there
        · intro w above
          rw [entries w, if_neg (by omega)]
          exact absent w (by omega)
        · exact fun free => null.2 ((spends_mappages mapped).1.subset free)
    · trivial

/-- `copyuvm` of an address space that is mapped up to its size returns. -/
theorem copyuvm_returns (covers : source.Covers sz) (null : 0 ∉ m.freelist) :
    ∃ result, copyuvm m source sz = .ok result := by
  have ends : Returns (fun _ => True) (copyuvm m source sz) := by
    unfold copyuvm
    apply setupkvm_returns.result.bind
    intro result setup
    obtain ⟨m₁, made⟩ := result
    cases made with
    | none => trivial
    | some pair =>
      obtain ⟨d, dir⟩ := pair
      obtain ⟨_, tables, spent, _⟩ := setupkvm_spec setup
      have empty : ∀ w, dir.entry w = none := fun w => entry_of_none (tables _)
      apply copyuvmLoop_returns covers
      · intro w pte found
        rw [empty w] at found
        cases found
      · exact fun w _ => empty w
      · exact fun free => null (spent.1.subset free)
  cases outcome : copyuvm m source sz with
  | error stop =>
    rw [outcome] at ends
    exact ends.elim
  | ok result => exact ⟨result, rfl⟩

/-- The pages that one round of `allocuvm` takes. -/
def takes (dir : Pgdir) (v : Nat) : Nat := 1 + if (dir.pgtab (v / NPTENTRIES)).isSome then 0 else 1

/-- A round goes through when it finds its pages; otherwise `allocuvm` does not return a size. -/
theorem allocuvmLoop_round (oldsz fuel : Nat) (inside : v * PGSIZE < newsz)
    (absent : dir.entry v = none) :
    (∃ m' dir',
      allocuvmLoop oldsz newsz (fuel + 1) m dir v = allocuvmLoop oldsz newsz fuel m' dir' (v + 1) ∧
      m.freelist.length = m'.freelist.length + takes dir v ∧ (dir'.pgtab (v / NPTENTRIES)).isSome ∧
      (∀ i, i ≠ v / NPTENTRIES → dir'.pgtab i = dir.pgtab i) ∧ ∀ w, w ≠ v →
        dir'.entry w = dir.entry w) ∨
    m.freelist.length < takes dir v ∧ ∀ m' dir' sz,
      allocuvmLoop oldsz newsz (fuel + 1) m dir v = .ok (m', dir', sz) → sz = 0 := by
  rw [allocuvmLoop, if_pos inside]
  unfold takes
  cases taken : kalloc m with
  | mk rest page =>
    cases page with
    | none =>
      refine .inr ⟨by rw [(kalloc_none taken).2, length_nil]; omega, fun m' dir' sz ran => ?_⟩
      obtain ⟨_, _, ran⟩ := bind_eq_ok.mp ran
      cases ran
      rfl
    | some frame =>
      have length : m.freelist.length = rest.freelist.length + 1 := by
        rw [(kalloc_some taken).1, length_cons]
      have returns :
        Returns (fun _ => True) (mappages (memset rest frame 0) dir v ⟨frame, true, true⟩) :=
        mappages_returns absent
      dsimp only
      cases mapped : mappages (memset rest frame 0) dir v ⟨frame, true, true⟩ with
      | error stop =>
        rw [mapped] at returns
        exact returns.elim
      | ok result =>
        obtain ⟨m₁, dir₁, done⟩ := result
        obtain ⟨fails, works⟩ := mappages_supply mapped
        cases done with
        | false =>
          obtain ⟨empty, missing⟩ := fails rfl
          have none : rest.freelist = [] := empty
          right
          constructor
          · rw [length, none, missing, length_nil]
            exact Nat.lt_succ_self 1
          intro m' dir' sz ran
          obtain ⟨_, same, ran⟩ := bind_eq_ok.mp ran
          cases same
          obtain ⟨_, _, ran⟩ := bind_eq_ok.mp ran
          cases ran
          rfl
        | true =>
          obtain ⟨there, others, spent⟩ := works rfl
          have spent : rest.freelist.length = m₁.freelist.length +
            (if (dir.pgtab (v / NPTENTRIES)).isSome then 0 else 1) := spent
          refine .inl ⟨m₁, dir₁, rfl, by omega, there, others, fun w other => ?_⟩
          rw [((mappages_spec mapped).1 rfl).2.2 w, if_neg other]

/-- The pages that `allocuvm` takes for a stack at page `v`. -/
def stackSupply (dir : Pgdir) (v : Nat) : Nat :=
  takes dir v + if (v + 1) / NPTENTRIES = v / NPTENTRIES then 1 else takes dir (v + 1)

theorem allocuvm_stack {start : Nat} (bound : start + 2 * PGSIZE < KERNBASE)
    (absent : ∀ v, pages start ≤ v → v < pages start + 2 → dir.entry v = none) :
    stackSupply dir (pages start) ≤ m.freelist.length ∧
      (∃ m' dir', allocuvm m dir start (start + 2 * PGSIZE) = .ok (m', dir', start + 2 * PGSIZE) ∧
        ∀ i ≤ pages start / NPTENTRIES, (dir'.pgtab i).isSome ↔
          i = pages start / NPTENTRIES ∨ (dir.pgtab i).isSome) ∨
    m.freelist.length < stackSupply dir (pages start) ∧ ∀ m' dir' sz,
      allocuvm m dir start (start + 2 * PGSIZE) = .ok (m', dir', sz) → sz = 0 := by
  have rounds : pages (start + 2 * PGSIZE) = pages start + 1 + 1 := by
    unfold pages PGSIZE
    omega
  have loop : allocuvm m dir start (start + 2 * PGSIZE) =
      allocuvmLoop start (start + 2 * PGSIZE) (pages start + 1 + 1) m dir (pages start) := by
    unfold allocuvm
    rw [if_neg (Nat.not_le_of_lt bound), if_neg (by omega), rounds]
  rw [loop]
  have first : pages start * PGSIZE < start + 2 * PGSIZE := lt_pages.mpr (by omega)
  have second : (pages start + 1) * PGSIZE < start + 2 * PGSIZE := lt_pages.mpr (by omega)
  have last : ¬ (pages start + 1 + 1) * PGSIZE < start + 2 * PGSIZE := fun more => by
    rw [lt_pages] at more
    omega
  unfold stackSupply
  rcases allocuvmLoop_round (m := m) start (pages start + 1) first
      (absent _ (Nat.le_refl _) (by omega)) with ⟨m₁, dir₁, same, spent, there, tables, entries⟩ |
        ⟨short, fails⟩
  · have takes₁ : takes dir₁ (pages start + 1) =
        if (pages start + 1) / NPTENTRIES = pages start / NPTENTRIES then 1
        else takes dir (pages start + 1) := by
      unfold takes
      by_cases equal : (pages start + 1) / NPTENTRIES = pages start / NPTENTRIES
      · rw [if_pos equal, equal, if_pos there]
      · rw [if_neg equal, tables _ equal]
    rw [same, spent, ← takes₁]
    rcases allocuvmLoop_round (m := m₁) start (pages start) second
        ((entries _ (Nat.succ_ne_self _)).trans (absent _ (Nat.le_succ _) (by omega))) with
      ⟨m₂, dir₂, same, spent, there₂, tables₂, _⟩ | ⟨short, fails⟩
    · refine .inl ⟨by omega, m₂, dir₂, ?_, fun i lower => ?_⟩
      · rw [same]
        cases fuel : pages start with
        | zero => rfl
        | succ fuel =>
          unfold allocuvmLoop
          rw [← fuel, if_neg last]
      · have monotone : pages start / NPTENTRIES ≤ (pages start + 1) / NPTENTRIES :=
          Nat.div_le_div_right (Nat.le_succ _)
        by_cases here : i = pages start / NPTENTRIES
        · refine iff_of_true ?_ (.inl here)
          rw [here]
          by_cases equal : pages start / NPTENTRIES = (pages start + 1) / NPTENTRIES
          · rwa [equal]
          · rwa [tables₂ _ equal]
        · rw [tables₂ i (by omega), tables i here, or_iff_right here]
    · exact .inr ⟨by omega, fails⟩
  · exact .inr ⟨by omega, fails⟩

end Xv6.Vm
