import Xv6.Lib.Pool
import Xv6.Vm.Supply

/- What the functions of vm.c do with physical pages: every page is free or has one use. -/
namespace Xv6.Vm

open Function Outcome Pool List

variable {table : Pgtab} {frame sz oldsz fuel newsz offset d' count : Nat} {done : Bool}

/-- The uses of physical pages in an address space. -/
inductive SpaceUse where
  | self
  | kernel (i : Nat)
  | table (i : Nat)
  | page (v : Nat)
deriving DecidableEq

/-- The page that the directory in page `d` has for each use. -/
def frameOf (d : Nat) (dir : Pgdir) : SpaceUse → Option Nat
  | .self => some d
  | .kernel i => dir.kernel[i]?
  | .table i => (dir.pgtab i).map Pgtab.frame
  | .page v => (dir.entry v).map Pte.frame

section Entries

variable {dir : Pgdir} {v : Nat}

theorem entry_of_table (found : dir.pgtab (v / NPTENTRIES) = some table) :
    dir.entry v = table.pte (v % NPTENTRIES) := by
  unfold Pgdir.entry
  rw [found]
  rfl

theorem entry_of_none (found : dir.pgtab (v / NPTENTRIES) = none) : dir.entry v = none := by
  unfold Pgdir.entry
  rw [found]
  rfl

theorem entry_setEntry (found : dir.pgtab (v / NPTENTRIES) = some table)
    (pte : Option Pte) (w : Nat) :
    (dir.setEntry v pte).entry w = if w = v then pte else dir.entry w := by
  unfold Pgdir.setEntry
  rw [found]
  dsimp only
  by_cases near : w / NPTENTRIES = v / NPTENTRIES
  · have here : (update dir.pgtab (v / NPTENTRIES) (some { table with
        pte := update table.pte (v % NPTENTRIES) pte })) (w / NPTENTRIES) =
        some { table with pte := update table.pte (v % NPTENTRIES) pte } := by
      rw [near, update_self]
    rw [entry_of_table here]
    dsimp only
    rw [update_apply, ← entry_of_table (near ▸ found)]
    have same : w % NPTENTRIES = v % NPTENTRIES ↔ w = v := by
      unfold NPTENTRIES at near ⊢
      omega
    simp only [same]
  · rw [if_neg (fun equal => near (congrArg (· / NPTENTRIES) equal))]
    unfold Pgdir.entry
    dsimp only
    rw [update_of_ne near]

theorem frameOf_setEntry (d : Nat) (found : dir.pgtab (v / NPTENTRIES) = some table)
    (pte : Option Pte) :
    frameOf d (dir.setEntry v pte) = update (frameOf d dir) (.page v) (pte.map Pte.frame) := by
  funext use
  rw [update_apply]
  cases use with
  | self => rfl
  | kernel i =>
    unfold Pgdir.setEntry
    rw [found]
    rfl
  | table i =>
    unfold Pgdir.setEntry
    rw [found]
    show (update dir.pgtab _ _ i).map _ = (dir.pgtab i).map _
    rw [update_apply]
    split
    · rename_i here
      rw [here, found]
      rfl
    · rfl
  | page w =>
    show ((dir.setEntry v pte).entry w).map _ = _
    rw [entry_setEntry found]
    by_cases same : w = v
    · rw [if_pos same, if_pos (congrArg _ same)]
    · rw [if_neg same, if_neg (fun equal => same (SpaceUse.page.inj equal))]
      rfl

/-- A page table that `walkpgdir` adds is empty. -/
theorem entry_newTable (missing : dir.pgtab (v / NPTENTRIES) = none) (w : Nat) :
    Pgdir.entry { dir with
      pgtab := update dir.pgtab (v / NPTENTRIES) (some ⟨frame, fun _ => none⟩) } w =
      dir.entry w := by
  unfold Pgdir.entry
  dsimp only
  by_cases near : w / NPTENTRIES = v / NPTENTRIES
  · rw [near, missing, update_self]
    rfl
  · rw [update_of_ne near]

theorem frameOf_newTable (d : Nat) (missing : dir.pgtab (v / NPTENTRIES) = none) :
    frameOf d { dir with
      pgtab := update dir.pgtab (v / NPTENTRIES) (some ⟨frame, fun _ => none⟩) } =
      update (frameOf d dir) (.table (v / NPTENTRIES)) (some frame) := by
  funext use
  rw [update_apply]
  cases use with
  | self => rfl
  | kernel i => rfl
  | table i =>
    show (update dir.pgtab _ _ i).map _ = _
    rw [update_apply]
    by_cases same : i = v / NPTENTRIES
    · rw [if_pos same, if_pos (congrArg _ same)]
      rfl
    · rw [if_neg same, if_neg (fun equal => same (SpaceUse.table.inj equal))]
      rfl
  | page w =>
    rw [if_neg SpaceUse.noConfusion]
    exact congrArg (Option.map Pte.frame) (entry_newTable missing w)

end Entries

theorem lt_pages {v : Nat} : v * PGSIZE < sz ↔ v < pages sz := by
  unfold pages PGSIZE
  omega

section Ownership

variable {O : Type} [DecidableEq O] {outer : O → Option Nat} {hand : List Nat}
    {m m' : Mem} {d : Nat}
  {dir dir' source : Pgdir} {v : Nat}

/-- The pages of an address space beside those with other uses, and free ones. Those of `hand` are
about to be used or freed. -/
def Owned (outer : O → Option Nat) (hand : List Nat) (m : Mem) (d : Nat) (dir : Pgdir) : Prop :=
  Separate (hand ++ m.freelist) (Sum.elim outer (frameOf d dir))

theorem update_elim (use : SpaceUse → Option Nat) (u : SpaceUse) (f : Option Nat) :
    update (Sum.elim outer use) (Sum.inr u) f = Sum.elim outer (update use u f) := by
  funext which
  cases which with
  | inl o =>
    rw [update_of_ne Sum.inl_ne_inr]
    rfl
  | inr w =>
    rw [update_apply]
    show _ = update use u f w
    rw [update_apply]
    simp only [Sum.inr.injEq, Sum.elim_inr]

/-- The step keeps every page free or in one use, whatever the other uses are. -/
def Tidy (m : Mem) (dir : Pgdir) (m' : Mem) (dir' : Pgdir) : Prop :=
  ∀ (O : Type) [DecidableEq O] (outer : O → Option Nat) (hand : List Nat) (d : Nat),
    Owned outer hand m d dir → Owned outer hand m' d dir'

theorem Tidy.refl (m : Mem) (dir : Pgdir) : Tidy m dir m dir := fun _ _ _ _ _ owned => owned

theorem Tidy.trans {m₁ m₂ m₃ : Mem} {dir₁ dir₂ dir₃ : Pgdir} (first : Tidy m₁ dir₁ m₂ dir₂)
    (second : Tidy m₂ dir₂ m₃ dir₃) : Tidy m₁ dir₁ m₃ dir₃ := by
  intro O _ outer hand d owned
  exact second O outer hand d (first O outer hand d owned)

theorem walkpgdir_spec (ran : walkpgdir m dir v = (m', dir', done)) :
    Tidy m dir m' dir' ∧ (∀ w, dir'.entry w = dir.entry w) ∧
    (done = true → ∃ table, dir'.pgtab (v / NPTENTRIES) = some table) := by
  unfold walkpgdir at ran
  split at ran
  · rename_i table found
    cases ran
    exact ⟨Tidy.refl _ _, fun _ => rfl, fun _ => ⟨table, found⟩⟩
  rename_i missing
  split at ran
  · rename_i rest empty
    cases ran
    rw [(kalloc_none empty).1]
    exact ⟨Tidy.refl _ _, fun _ => rfl, Bool.noConfusion⟩
  rename_i rest frame taken
  cases ran
  refine ⟨?_, entry_newTable missing, fun _ => ⟨_, update_self _ _ _⟩⟩
  intro O _ outer hand d owned
  unfold Owned at owned ⊢
  rw [(kalloc_some taken).1] at owned
  rw [frameOf_newTable d missing, ← update_elim]
  exact owned.take _

/-- The page in hand goes into the page table. -/
theorem mappages_spec {pte : Pte} (ran : mappages m dir v pte = .ok (m', dir', done)) :
    (done = true →
      (∀ (O : Type) [DecidableEq O] (outer : O → Option Nat) (hand : List Nat) (d : Nat),
        Owned outer (pte.frame :: hand) m d dir → Owned outer hand m' d dir') ∧
      dir.entry v = none ∧ ∀ w, dir'.entry w = if w = v then some pte else dir.entry w) ∧
    (done = false → Tidy m dir m' dir' ∧ ∀ w, dir'.entry w = dir.entry w) := by
  unfold mappages at ran
  split at ran
  · rename_i m₁ dir₁ walked
    cases ran
    obtain ⟨tidy, entries, _⟩ := walkpgdir_spec walked
    exact ⟨Bool.noConfusion, fun _ => ⟨tidy, entries⟩⟩
  rename_i m₁ dir₁ walked
  obtain ⟨tidy, entries, there⟩ := walkpgdir_spec walked
  obtain ⟨table, found⟩ := there rfl
  split at ran
  · cases ran
  rename_i absent
  cases ran
  refine ⟨fun _ => ⟨?_, ?_, ?_⟩, Bool.noConfusion⟩
  · intro O _ outer hand d owned
    have owned := tidy O outer _ d owned
    unfold Owned at owned ⊢
    rw [frameOf_setEntry d found, ← update_elim, Option.map_some]
    exact Separate.takeHead owned _
  · rw [← entries]
    exact Option.not_isSome_iff_eq_none.mp absent
  · intro w
    rw [entry_setEntry found, entries]

/-- A page of the address space is freed. -/
theorem unmap_spec {pte : Pte} (found : dir.entry v = some pte) :
    Tidy m dir (kfree m pte.frame) (dir.setEntry v none) ∧
    ∀ w, (dir.setEntry v none).entry w = if w = v then none else dir.entry w := by
  cases there : dir.pgtab (v / NPTENTRIES) with
  | none =>
    rw [entry_of_none there] at found
    cases found
  | some table =>
    refine ⟨?_, entry_setEntry there none⟩
    intro O _ outer hand d owned
    unfold Owned at owned ⊢
    rw [frameOf_setEntry d there, ← update_elim]
    apply (owned.give (u := Sum.inr (.page v)) (f := pte.frame) _).perm
    · exact perm_middle.symm
    · show (dir.entry v).map Pte.frame = _
      rw [found]
      rfl

/-- Unmap `count` pages from page `v` on, one by one. -/
def unmapPages : Nat → Mem → Pgdir → Nat → Except Stop (Mem × Pgdir)
  | 0, m, dir, _ => .ok (m, dir)
  | count + 1, m, dir, v =>
    match dir.entry v with
    | none => unmapPages count m dir (v + 1)
    | some pte =>
      if pte.frame = 0 then .error .kfree
      else unmapPages count (kfree m pte.frame) (dir.setEntry v none) (v + 1)

theorem unmapPages_absent {skip : Nat} (absent : ∀ i < skip, dir.entry (v + i) = none) :
    unmapPages count m dir v = unmapPages (count - skip) m dir (v + skip) := by
  induction skip generalizing v count with
  | zero => rfl
  | succ skip ih =>
    cases count with
    | zero =>
      rw [Nat.zero_sub]
      rfl
    | succ count =>
      rw [unmapPages, show dir.entry v = none from absent 0 (Nat.succ_pos skip),
        Nat.add_sub_add_right,
        Nat.add_comm skip, ← Nat.add_assoc]
      refine ih fun i below => ?_
      rw [Nat.add_assoc, Nat.add_comm 1]
      exact absent (i + 1) (Nat.succ_lt_succ below)

/-- The jump over a page table that is missing passes no entry. -/
theorem deallocuvmLoop_eq (enough : pages oldsz ≤ v + fuel) :
    deallocuvmLoop oldsz fuel m dir v = unmapPages (pages oldsz - v) m dir v := by
  induction fuel generalizing m dir v with
  | zero =>
    rw [Nat.sub_eq_zero_of_le (show pages oldsz ≤ v from enough)]
    rfl
  | succ fuel ih =>
    unfold deallocuvmLoop
    split
    · rename_i below
      rw [lt_pages] at below
      split
      · rename_i missing
        have next : v + ((v / NPTENTRIES + 1) * NPTENTRIES - v) = (v / NPTENTRIES + 1) *
            NPTENTRIES := by
          unfold NPTENTRIES
          omega
        have absent : ∀ i < (v / NPTENTRIES + 1) * NPTENTRIES - v, dir.entry (v + i) = none := by
          intro i inside
          have near : (v + i) / NPTENTRIES = v / NPTENTRIES := by
            unfold NPTENTRIES at inside ⊢
            omega
          exact entry_of_none (near ▸ missing)
        rw [ih (by unfold NPTENTRIES; omega), unmapPages_absent absent, next]
        congr 1
        omega
      · have one : pages oldsz - v = (pages oldsz - (v + 1)) + 1 := by omega
        rw [one, unmapPages]
        cases dir.entry v with
        | none => exact ih (by omega)
        | some pte =>
          dsimp only
          rw [ih (by omega)]
    · rename_i above
      rw [lt_pages] at above
      rw [Nat.sub_eq_zero_of_le (by omega)]
      rfl

/-- The pages that the entries from `v` on lead to. -/
def Pgdir.frames (dir : Pgdir) (v count : Nat) : List Nat :=
  (List.range' v count).filterMap fun w => (dir.entry w).map Pte.frame

theorem unmapPages_spec (ran : unmapPages count m dir v = .ok (m', dir')) :
    Tidy m dir m' dir' ∧ m'.freelist = (dir.frames v count).reverse ++ m.freelist ∧
    ∀ w, dir'.entry w = if v ≤ w ∧ w < v + count then none else dir.entry w := by
  induction count generalizing m dir v with
  | zero =>
    cases ran
    refine ⟨Tidy.refl _ _, rfl, fun w => ?_⟩
    rw [if_neg (by omega)]
  | succ count ih =>
    rw [unmapPages] at ran
    rw [Pgdir.frames, range'_succ]
    split at ran
    · rename_i absent
      obtain ⟨tidy, list, entries⟩ := ih ran
      refine ⟨tidy, ?_, fun w => ?_⟩
      · rw [list, filterMap_cons, absent]
        rfl
      · rw [entries w]
        by_cases here : w = v
        · rw [here, if_neg (by omega), if_pos (by omega), absent]
        · have same : (v + 1 ≤ w ∧ w < v + 1 + count) ↔ (v ≤ w ∧ w < v + (count + 1)) := by omega
          simp only [same]
    · rename_i pte present
      split at ran
      · cases ran
      obtain ⟨freed, unmapped⟩ := unmap_spec (m := m) present
      obtain ⟨tidy, list, entries⟩ := ih ran
      refine ⟨freed.trans tidy, ?_, fun w => ?_⟩
      · have later : (dir.setEntry v none).frames (v + 1) count = dir.frames (v + 1) count := by
          apply filterMap_congr
          intro w inside
          have above := (mem_range'_1.mp inside).1
          rw [unmapped w, if_neg (by omega)]
        rw [list, later, filterMap_cons, present]
        show _ = (pte.frame :: dir.frames (v + 1) count).reverse ++ _
        rw [reverse_cons, append_assoc]
        rfl
      · rw [entries w, unmapped w]
        by_cases here : w = v
        · rw [here, if_neg (by omega), if_pos rfl, if_pos (by omega)]
        · have same : (v + 1 ≤ w ∧ w < v + 1 + count) ↔ (v ≤ w ∧ w < v + (count + 1)) := by omega
          simp only [same, if_neg here]

/-- `deallocuvm` is the loop over every page. -/
theorem deallocuvm_eq : deallocuvm m dir oldsz newsz =
    (unmapPages (pages oldsz - pages newsz) m dir (pages newsz) >>= fun result =>
      .ok (result.1, result.2, min oldsz newsz)) := by
  unfold deallocuvm
  split
  · rename_i larger
    have none : pages oldsz - pages newsz = 0 := by
      unfold pages PGSIZE
      omega
    rw [none, Nat.min_eq_left larger]
    rfl
  · rename_i smaller
    rw [deallocuvmLoop_eq (by omega), Nat.min_eq_right (by omega)]

theorem deallocuvm_spec (ran : deallocuvm m dir oldsz newsz = .ok (m', dir', sz)) :
    Tidy m dir m' dir' ∧ sz = min oldsz newsz ∧
    ∀ w, dir'.entry w = if pages newsz ≤ w ∧ w < pages oldsz then none else dir.entry w := by
  rw [deallocuvm_eq] at ran
  obtain ⟨⟨m₁, dir₁⟩, unmapped, ran⟩ := bind_eq_ok.mp ran
  cases ran
  obtain ⟨tidy, _, entries⟩ := unmapPages_spec unmapped
  refine ⟨tidy, rfl, fun w => ?_⟩
  have same : (pages newsz ≤ w ∧ w < pages newsz + (pages oldsz - pages newsz)) ↔
      (pages newsz ≤ w ∧ w < pages oldsz) := by omega
  rw [entries w]
  simp only [same]

/-- The pages from `v` on below `newsz` are mapped and were not before; without memory, all from
`oldsz` on are unmapped. -/
theorem allocuvmLoop_spec (ran : allocuvmLoop oldsz newsz fuel m dir v = .ok (m', dir', sz))
    (enough : pages newsz ≤ v + fuel) (start : pages oldsz ≤ v) :
    Tidy m dir m' dir' ∧
    (sz = newsz ∧ (∀ w, v ≤ w → w < pages newsz → dir.entry w = none ∧
        ∃ frame, dir'.entry w = some ⟨frame, true, true⟩) ∧
      (∀ w, w < v ∨ pages newsz ≤ w → dir'.entry w = dir.entry w) ∨
    sz = 0 ∧ ∀ w, dir'.entry w = if pages oldsz ≤ w ∧ w < pages newsz then none
      else dir.entry w) := by
  induction fuel generalizing m dir v with
  | zero =>
    cases ran
    exact ⟨Tidy.refl _ _, .inl ⟨rfl, by omega, fun _ _ => rfl⟩⟩
  | succ fuel ih =>
    unfold allocuvmLoop at ran
    split at ran
    · rename_i below
      rw [lt_pages] at below
      split at ran
      · rename_i rest empty
        obtain ⟨⟨m₁, dir₁, sz₁⟩, freed, ran⟩ := bind_eq_ok.mp ran
        cases ran
        rw [(kalloc_none empty).1] at freed
        obtain ⟨tidy, _, entries⟩ := deallocuvm_spec freed
        exact ⟨tidy, .inr ⟨rfl, entries⟩⟩
      rename_i rest frame taken
      obtain ⟨⟨m₁, dir₁, done⟩, mapped, ran⟩ := bind_eq_ok.mp ran
      obtain ⟨works, fails⟩ := mappages_spec mapped
      have inHand : ∀ (O : Type) [DecidableEq O] (outer : O → Option Nat)
        (hand : List Nat) (d : Nat),
          Owned outer hand m d dir → Owned outer (frame :: hand) (memset rest frame 0) d dir := by
        intro O _ outer hand d owned
        unfold Owned at owned ⊢
        rw [(kalloc_some taken).1] at owned
        exact owned.perm perm_middle
      cases done with
      | false =>
        obtain ⟨tidy, entries⟩ := fails rfl
        dsimp only at ran
        rw [if_neg Bool.false_ne_true, bind_eq_ok] at ran
        obtain ⟨⟨m₂, dir₂, sz₂⟩, freed, ran⟩ := ran
        cases ran
        obtain ⟨tidy', _, entries'⟩ := deallocuvm_spec freed
        refine ⟨?_, .inr ⟨rfl, ?_⟩⟩
        · intro O _ outer hand d owned
          exact (tidy' O outer _ d (tidy O outer _ d (inHand O outer hand d owned))).perm
            perm_middle.symm
        · intro w
          rw [entries' w, entries w]
      | true =>
        obtain ⟨tidy, absent, entries⟩ := works rfl
        dsimp only at ran
        rw [if_pos rfl] at ran
        obtain ⟨tidy', rest'⟩ := ih ran (by omega) (by omega)
        refine ⟨?_, ?_⟩
        · intro O _ outer hand d owned
          exact tidy' O outer _ d (tidy O outer hand d (inHand O outer hand d owned))
        rcases rest' with ⟨size, new, old⟩ | ⟨size, entries'⟩
        · refine .inl ⟨size, ?_, ?_⟩
          · intro w lower upper
            by_cases here : w = v
            · rw [here, old v (.inl (by omega)), entries v, if_pos rfl]
              exact ⟨absent, frame, rfl⟩
            · obtain ⟨before, after⟩ := new w (by omega) upper
              rw [entries w, if_neg here] at before
              exact ⟨before, after⟩
          · intro w outside
            rw [old w (by omega), entries w, if_neg (by omega)]
        · refine .inr ⟨size, fun w => ?_⟩
          rw [entries' w, entries w]
          by_cases here : w = v
          · rw [here, if_pos (by omega), if_pos (by omega)]
          · rw [if_neg here]
    · rename_i above
      rw [lt_pages] at above
      cases ran
      exact ⟨Tidy.refl _ _, .inl ⟨rfl, by omega, fun _ _ => rfl⟩⟩

/-- Outside of the pages that are mapped or unmapped the address space stays. -/
theorem allocuvm_spec (ran : allocuvm m dir oldsz newsz = .ok (m', dir', sz)) :
    Tidy m dir m' dir' ∧
    (sz = newsz ∧ oldsz ≤ newsz ∧ newsz < KERNBASE ∧
      (∀ w, pages oldsz ≤ w → w < pages newsz → dir.entry w = none ∧
        ∃ frame, dir'.entry w = some ⟨frame, true, true⟩) ∧
      (∀ w, w < pages oldsz ∨ pages newsz ≤ w → dir'.entry w = dir.entry w) ∨
    sz = oldsz ∧ newsz < oldsz ∧ (∀ w, dir'.entry w = dir.entry w) ∨
    sz = 0 ∧ ((∀ w, dir'.entry w = dir.entry w) ∨ oldsz ≤ newsz ∧
      ∀ w, dir'.entry w = if pages oldsz ≤ w ∧ w < pages newsz then none else dir.entry w)) := by
  unfold allocuvm at ran
  split at ran
  · cases ran
    exact ⟨Tidy.refl _ _, .inr (.inr ⟨rfl, .inl fun _ => rfl⟩)⟩
  rename_i low
  split at ran
  · rename_i smaller
    cases ran
    exact ⟨Tidy.refl _ _, .inr (.inl ⟨rfl, smaller, fun _ => rfl⟩)⟩
  · obtain ⟨tidy, ⟨size, new, old⟩ | ⟨size, entries⟩⟩ :=
      allocuvmLoop_spec ran (by omega) (Nat.le_refl _)
    · exact ⟨tidy, .inl ⟨size, by omega, by omega, new, old⟩⟩
    · exact ⟨tidy, .inr (.inr ⟨size, .inr ⟨by omega, entries⟩⟩)⟩

theorem clearpteu_spec (ran : clearpteu dir v = .ok dir') :
    Tidy m dir m dir' ∧ ∀ w, dir'.entry w =
      if w = v then (dir.entry v).map fun pte => { pte with user := false } else dir.entry w := by
  unfold clearpteu at ran
  split at ran
  · cases ran
  rename_i table found
  cases ran
  refine ⟨?_, entry_setEntry found _⟩
  intro O _ outer hand d owned
  unfold Owned at owned ⊢
  rw [frameOf_setEntry d found, ← update_elim]
  apply owned.congr
  intro use frame used
  rw [update_apply] at used
  split at used
  · rename_i here
    rw [here]
    show (dir.entry v).map Pte.frame = some frame
    rw [Option.map_map] at used
    exact used
  · exact used

theorem tidy_bytes (same : m'.freelist = m.freelist) : Tidy m dir m' dir := by
  intro O _ outer hand d owned
  unfold Owned
  rw [same]
  exact owned

theorem loaduvmLoop_freelist {file : List UInt8} {i : Nat}
    (ran : loaduvmLoop dir v file offset sz fuel m i = .ok (m', done)) :
    m'.freelist = m.freelist := by
  induction fuel generalizing m i with
  | zero =>
    cases ran
    rfl
  | succ fuel ih =>
    unfold loaduvmLoop at ran
    split at ran
    · split at ran
      · cases ran
      split at ran
      · cases ran
      dsimp only at ran
      split at ran
      · have same := ih ran
        exact same
      · cases ran
        rfl
    · cases ran
      rfl

theorem loaduvm_freelist {file : List UInt8} {addr : Nat}
    (ran : loaduvm m dir addr file offset sz = .ok (m', done)) : m'.freelist = m.freelist := by
  unfold loaduvm at ran
  split at ran
  · cases ran
  · exact loaduvmLoop_freelist ran

theorem pages_le {a b : Nat} (le : a ≤ b) : pages a ≤ pages b := by
  unfold pages
  exact Nat.div_le_div_right (by omega)

theorem pages_mul (n : Nat) : pages (n * PGSIZE) = n := by
  unfold pages PGSIZE
  omega

/-- Every page below `sz` is present. -/
def Pgdir.Covers (dir : Pgdir) (sz : Nat) : Prop := ∀ v, v < pages sz → dir.entry v ≠ none

theorem Pgdir.Covers.mono {less : Nat} (covers : dir.Covers sz) (le : less ≤ sz) :
    dir.Covers less :=
  fun v below => covers v (Nat.lt_of_lt_of_le below (pages_le le))

/-- No page below `sz` goes away. -/
theorem Pgdir.Covers.keep (covers : dir.Covers sz)
    (kept : ∀ v, v < pages sz → dir.entry v ≠ none → dir'.entry v ≠ none) : dir'.Covers sz :=
  fun v below => kept v below (covers v below)

theorem covers_allocuvm (covers : dir.Covers oldsz)
    (ran : allocuvm m dir oldsz newsz = .ok (m', dir', sz)) (done : sz ≠ 0) : dir'.Covers sz := by
  intro v below
  rcases (allocuvm_spec ran).2 with ⟨size, _, _, fresh, others⟩ | ⟨size, _, same⟩ | ⟨size, _⟩
  · rw [size] at below
    by_cases old : v < pages oldsz
    · rw [others v (.inl old)]
      exact covers v old
    · obtain ⟨frame, found⟩ := (fresh v (Nat.le_of_not_lt old) below).2
      rw [found]
      exact Option.some_ne_none _
  · rw [size] at below
    rw [same]
    exact covers v below
  · exact absurd size done

theorem covers_clearpteu (covers : dir.Covers sz) (ran : clearpteu dir v = .ok dir') :
    dir'.Covers sz := by
  apply covers.keep
  intro w _ present
  rw [(clearpteu_spec (m := ⟨[], fun _ _ => 0⟩) ran).2 w]
  split
  · rename_i here
    rw [here] at present
    exact mt Option.map_eq_none_iff.mp present
  · exact present

/-- The pages that a list of frees gives back. -/
theorem foldl_kfree (list : List Nat) (m : Mem) :
    (list.foldl kfree m).freelist = list.reverse ++ m.freelist := by
  induction list generalizing m with
  | nil => rfl
  | cons frame rest ih =>
    rw [foldl_cons, ih, reverse_cons, append_assoc]
    rfl

theorem foldl_freeTable (dir : Pgdir) (list : List Nat) (m : Mem) :
    (list.foldl (freeTable dir) m).freelist =
      (list.filterMap fun i => (dir.pgtab i).map Pgtab.frame).reverse ++ m.freelist := by
  induction list generalizing m with
  | nil => rfl
  | cons i rest ih =>
    rw [foldl_cons, ih, filterMap_cons]
    unfold freeTable
    cases dir.pgtab i with
    | none => rfl
    | some table =>
      simp only [Option.map_some, reverse_cons, append_assoc]
      rfl

/-- What `freevm` frees after the user pages. -/
def freedUses (dir : Pgdir) : List SpaceUse :=
  .self :: (((List.range dir.kernel.length).map .kernel) ++
    (List.range (KERNBASE / (PGSIZE * NPTENTRIES))).map .table)

theorem freedUses_nodup (dir : Pgdir) : (freedUses dir).Nodup := by
  unfold freedUses
  rw [nodup_cons, nodup_append]
  refine ⟨?_, ?_, ?_, ?_⟩
  · simp only [mem_append, mem_map, reduceCtorEq, and_false, exists_false, or_self,
      not_false_eq_true]
  · exact nodup_range.map fun _ _ => SpaceUse.kernel.inj
  · exact nodup_range.map fun _ _ => SpaceUse.table.inj
  · intro use kernel other table equal
    obtain ⟨i, _, first⟩ := mem_map.mp kernel
    obtain ⟨j, _, second⟩ := mem_map.mp table
    rw [← first, ← second] at equal
    cases equal

theorem filterMap_getElem?_range (list : List Nat) :
    (List.range list.length).filterMap (fun i => list[i]?) = list := by
  induction list with
  | nil => rfl
  | cons a rest ih =>
    simp only [length_cons, range_succ_eq_map, filterMap_cons, filterMap_map,
      getElem?_cons_zero, comp_def, Nat.succ_eq_add_one, getElem?_cons_succ, ih]

theorem filterMap_freedUses (d : Nat) (dir : Pgdir) :
    (freedUses dir).filterMap (frameOf d dir) = d :: (dir.kernel ++
      (List.range (KERNBASE / (PGSIZE * NPTENTRIES))).filterMap
        fun i => (dir.pgtab i).map Pgtab.frame) := by
  unfold freedUses
  rw [filterMap_cons, filterMap_append, filterMap_map, filterMap_map]
  show d :: ((List.range dir.kernel.length).filterMap (fun i => dir.kernel[i]?) ++ _) = _
  rw [filterMap_getElem?_range]
  rfl

/-- Without the address space the other uses are left. -/
theorem freevm_spec (ran : freevm m d dir = .ok m') (owned : Owned outer hand m d dir) :
    Separate (hand ++ m'.freelist) outer := by
  unfold freevm at ran
  obtain ⟨⟨m₁, dir₁, sz⟩, unmapped, ran⟩ := bind_eq_ok.mp ran
  have owned := (deallocuvm_spec unmapped).1 O outer hand d owned
  cases ran
  have released := Separate.release owned ((freedUses dir₁).map Sum.inr)
    ((freedUses_nodup dir₁).map fun _ _ => Sum.inr.inj)
  have listed : ((freedUses dir₁).map Sum.inr).filterMap (Sum.elim outer (frameOf d dir₁)) =
      (freedUses dir₁).filterMap (frameOf d dir₁) := by
    rw [filterMap_map]
    rfl
  rw [listed, filterMap_freedUses] at released
  have outside : Separate _ outer := released.embed Sum.inl (by
    intro o frame used
    rw [if_neg]
    · exact used
    · intro member
      obtain ⟨use, _, equal⟩ := mem_map.mp member
      cases equal) fun _ _ _ _ _ equal => Sum.inl.inj equal
  apply outside.perm
  show (_ : List Nat).Perm (hand ++ d :: (dir₁.kernel.foldl kfree _).freelist)
  rw [foldl_kfree, foldl_freeTable, perm_iff_count]
  intro frame
  simp only [count_append, count_cons, count_reverse]
  omega

/-- Pages are only taken from the free list, and no others are written. -/
def Spends (m m' : Mem) : Prop :=
  m'.freelist <:+ m.freelist ∧ ∀ frame, frame ∉ m.freelist → m'.page frame = m.page frame

theorem Spends.refl (m : Mem) : Spends m m := ⟨suffix_refl _, fun _ _ => rfl⟩

theorem Spends.trans {m₁ m₂ m₃ : Mem} (first : Spends m₁ m₂) (second : Spends m₂ m₃) :
    Spends m₁ m₃ := by
  refine ⟨second.1.trans first.1, fun frame used => ?_⟩
  rw [second.2 frame fun free => used (first.1.subset free), first.2 frame used]

/-- A page is taken and filled. -/
theorem spends_kalloc (taken : kalloc m = (m', some frame)) (page : Nat → UInt8) :
    Spends m { m' with page := update m'.page frame page } := by
  obtain ⟨list, same⟩ := kalloc_some taken
  constructor
  · rw [list]
    exact suffix_cons frame _
  · intro other used
    rw [list, mem_cons, not_or] at used
    show update m'.page frame page other = _
    rw [update_of_ne used.1, same]

theorem frameOf_kernel (d frame : Nat) (dir : Pgdir) :
    frameOf d { dir with kernel := dir.kernel ++ [frame] } =
      update (frameOf d dir) (.kernel dir.kernel.length) (some frame) := by
  funext use
  rw [update_apply]
  cases use with
  | self => rfl
  | kernel i =>
    show (dir.kernel ++ [frame])[i]? = _
    by_cases last : i = dir.kernel.length
    · rw [last, if_pos rfl, getElem?_concat_length]
    · rw [if_neg (fun equal => last (SpaceUse.kernel.inj equal)), getElem?_append]
      split
      · rfl
      · rw [getElem?_eq_none (by rw [length_singleton]; omega)]
        exact (getElem?_eq_none (by omega)).symm
  | table i => rfl
  | page v => rfl

theorem tidy_kernel (taken : kalloc m = (m', some frame)) :
    Tidy m dir (memset m' frame 0) { dir with kernel := dir.kernel ++ [frame] } := by
  intro O _ outer hand d owned
  unfold Owned at owned ⊢
  rw [(kalloc_some taken).1] at owned
  rw [frameOf_kernel, ← update_elim]
  exact owned.take _

theorem setupkvmLoop_spec (ran : setupkvmLoop d count m dir = .ok (m', some (d', dir'))) :
    d' = d ∧ Tidy m dir m' dir' ∧ Spends m m' := by
  induction count generalizing m dir with
  | zero =>
    cases ran
    exact ⟨rfl, Tidy.refl _ _, Spends.refl _⟩
  | succ count ih =>
    unfold setupkvmLoop at ran
    split at ran
    · obtain ⟨freed, _, ran⟩ := bind_eq_ok.mp ran
      cases ran
    · rename_i rest frame taken
      obtain ⟨equal, tidy, spends⟩ := ih ran
      exact ⟨equal, (tidy_kernel taken).trans tidy, (spends_kalloc taken _).trans spends⟩

theorem setupkvmLoop_failed (ran : setupkvmLoop d count m dir = .ok (m', none))
    (owned : Owned outer hand m d dir) : Separate (hand ++ m'.freelist) outer := by
  induction count generalizing m dir with
  | zero => cases ran
  | succ count ih =>
    unfold setupkvmLoop at ran
    split at ran
    · rename_i rest empty
      rw [(kalloc_none empty).1, bind_eq_ok] at ran
      obtain ⟨freed, freeing, ran⟩ := ran
      cases ran
      exact freevm_spec freeing owned
    · rename_i rest frame taken
      exact ih ran (tidy_kernel taken O outer hand d owned)

/-- The new directory is in a page that was free. -/
theorem owned_newDir {d : Nat} (taken : kalloc m = (m', some d))
    (separate : Separate (hand ++ m.freelist) outer) :
    Owned outer hand (memset m' d 0) d ⟨[], fun _ => none⟩ := by
  have same : Sum.elim outer (frameOf d ⟨[], fun _ => none⟩) =
      update (Sum.elim outer fun _ : SpaceUse => none) (Sum.inr .self) (some d) := by
    rw [update_elim]
    congr 1
    funext use
    cases use with
    | self => rw [update_self]; rfl
    | kernel i => rfl
    | table i => rfl
    | page v => rfl
  unfold Owned
  rw [same]
  rw [(kalloc_some taken).1] at separate
  exact separate.extend.take _

theorem setupkvm_spec (ran : setupkvm m = .ok (m', some (d, dir))) :
    (∀ (O : Type) [DecidableEq O] (outer : O → Option Nat) (hand : List Nat),
      Separate (hand ++ m.freelist) outer → Owned outer hand m' d dir) ∧
    (∀ i, dir.pgtab i = none) ∧ Spends m m' ∧ d ∈ m.freelist := by
  unfold setupkvm at ran
  split at ran
  · cases ran
  rename_i rest frame taken
  obtain ⟨equal, tidy, spends⟩ := setupkvmLoop_spec ran
  subst equal
  refine ⟨?_, ?_, (spends_kalloc taken _).trans spends, ?_⟩
  · intro O _ outer hand separate
    exact tidy O outer hand d (owned_newDir taken separate)
  · intro i
    rw [(setupkvmLoop_some ran).2]
  · rw [(kalloc_some taken).1]
    exact mem_cons_self

theorem setupkvm_failed (ran : setupkvm m = .ok (m', none))
    (separate : Separate (hand ++ m.freelist) outer) : Separate (hand ++ m'.freelist) outer := by
  unfold setupkvm at ran
  split at ran
  · rename_i rest empty
    cases ran
    rw [(kalloc_none empty).1]
    exact separate
  · rename_i rest d taken
    exact setupkvmLoop_failed ran (owned_newDir taken separate)

theorem spends_walkpgdir (ran : walkpgdir m dir v = (m', dir', done)) : Spends m m' := by
  unfold walkpgdir at ran
  split at ran
  · cases ran
    exact Spends.refl _
  split at ran
  · rename_i rest empty
    cases ran
    rw [(kalloc_none empty).1]
    exact Spends.refl _
  · rename_i rest frame taken
    cases ran
    exact spends_kalloc taken _

theorem spends_mappages {pte : Pte} (ran : mappages m dir v pte = .ok (m', dir', done)) :
    Spends m m' := by
  unfold mappages at ran
  split at ran
  · rename_i m₁ dir₁ walked
    cases ran
    exact spends_walkpgdir walked
  · rename_i m₁ dir₁ walked
    split at ran
    · cases ran
    · cases ran
      exact spends_walkpgdir walked

/-- The pages of `source` from `v` on are copied to pages that were free. -/
theorem copyuvmLoop_spec (ran : copyuvmLoop source sz d fuel m dir v = .ok (m', some (d', dir')))
    (enough : pages sz ≤ v + fuel) (nodup : m.freelist.Nodup)
    (used : ∀ w pte, source.entry w = some pte → pte.frame ∉ m.freelist) :
    d' = d ∧ Tidy m dir m' dir' ∧ Spends m m' ∧
    (∀ w, w < v ∨ pages sz ≤ w → dir'.entry w = dir.entry w) ∧
    ∀ w, v ≤ w → w < pages sz → ∃ pte frame, source.entry w = some pte ∧
      dir'.entry w = some { pte with frame := frame } ∧ frame ∈ m.freelist ∧
      m'.page frame = m.page pte.frame := by
  induction fuel generalizing m dir v with
  | zero =>
    cases ran
    exact ⟨rfl, Tidy.refl _ _, Spends.refl _, fun _ _ => rfl, by omega⟩
  | succ fuel ih =>
    unfold copyuvmLoop at ran
    split at ran
    · rename_i below
      rw [lt_pages] at below
      split at ran
      · cases ran
      split at ran
      · cases ran
      rename_i pte present
      split at ran
      · obtain ⟨freed, _, ran⟩ := bind_eq_ok.mp ran
        cases ran
      rename_i rest frame taken
      obtain ⟨⟨m₁, dir₁, done⟩, mapped, ran⟩ := bind_eq_ok.mp ran
      cases done with
      | false =>
        dsimp only at ran
        rw [if_neg Bool.false_ne_true, bind_eq_ok] at ran
        obtain ⟨freed, _, ran⟩ := ran
        cases ran
      | true =>
        dsimp only at ran
        rw [if_pos rfl] at ran
        obtain ⟨list, same⟩ := kalloc_some taken
        rw [list] at nodup
        obtain ⟨fresh, nodup⟩ := nodup_cons.mp nodup
        have filled := spends_kalloc taken (rest.page pte.frame)
        have mapping := spends_mappages mapped
        have spent := filled.trans mapping
        obtain ⟨tidy, _, entries⟩ := (mappages_spec mapped).1 rfl
        obtain ⟨equal, tidy', spends, old, new⟩ := ih ran (by omega)
          (nodup.sublist mapping.1.sublist)
          fun w pte found free => used w pte found (spent.1.subset free)
        refine ⟨equal, ?_, spent.trans spends, ?_, ?_⟩
        · intro O _ outer hand d owned
          apply tidy' O outer hand d
          apply tidy O outer hand d
          unfold Owned at owned ⊢
          rw [list] at owned
          exact owned.perm perm_middle
        · intro w outside
          rw [old w (by omega), entries w, if_neg (by omega)]
        intro w lower upper
        by_cases here : w = v
        · refine ⟨pte, frame, here ▸ present, ?_, ?_, ?_⟩
          · rw [here, old v (.inl (by omega)), entries v, if_pos rfl]
          · rw [list]
            exact mem_cons_self
          · rw [spends.2 frame fun free => fresh (mapping.1.subset free), mapping.2 frame fresh]
            show update rest.page frame (rest.page pte.frame) frame = _
            rw [update_self, same]
        · obtain ⟨other, copy, found, entry, free, bytes⟩ := new w (by omega) upper
          refine ⟨other, copy, found, entry, spent.1.subset free, ?_⟩
          rw [bytes, spent.2 _ (used w other found)]
    · rename_i above
      rw [lt_pages] at above
      cases ran
      exact ⟨rfl, Tidy.refl _ _, Spends.refl _, fun _ _ => rfl, by omega⟩

theorem copyuvmLoop_failed (ran : copyuvmLoop source sz d fuel m dir v = .ok (m', none))
    (owned : Owned outer hand m d dir) : Separate (hand ++ m'.freelist) outer := by
  induction fuel generalizing m dir v with
  | zero => cases ran
  | succ fuel ih =>
    unfold copyuvmLoop at ran
    split at ran
    · split at ran
      · cases ran
      split at ran
      · cases ran
      rename_i pte present
      split at ran
      · rename_i rest empty
        obtain ⟨freed, freeing, ran⟩ := bind_eq_ok.mp ran
        cases ran
        rw [(kalloc_none empty).1] at freeing
        exact freevm_spec freeing owned
      rename_i rest frame taken
      have inHand : Owned outer (frame :: hand)
          { rest with page := update rest.page frame (rest.page pte.frame) } d dir := by
        unfold Owned at owned ⊢
        rw [(kalloc_some taken).1] at owned
        exact owned.perm perm_middle
      obtain ⟨⟨m₁, dir₁, done⟩, mapped, ran⟩ := bind_eq_ok.mp ran
      obtain ⟨works, fails⟩ := mappages_spec mapped
      cases done with
      | false =>
        dsimp only at ran
        rw [if_neg Bool.false_ne_true, bind_eq_ok] at ran
        obtain ⟨freed, freeing, ran⟩ := ran
        cases ran
        apply freevm_spec freeing
        exact ((fails rfl).1 O outer _ d inHand).perm perm_middle.symm
      | true =>
        dsimp only at ran
        rw [if_pos rfl] at ran
        exact ih ran ((works rfl).1 O outer hand d inHand)
    · cases ran

/-- The copy of an address space is one of its own, with the same flags and bytes. -/
theorem copyuvm_spec (ran : copyuvm m source sz = .ok (m', some (d, dir)))
    (separate : Separate (hand ++ m.freelist) outer)
    (used : ∀ w pte, source.entry w = some pte → pte.frame ∉ m.freelist) :
    Owned outer hand m' d dir ∧ Spends m m' ∧ d ∈ m.freelist ∧
    (∀ w, pages sz ≤ w → dir.entry w = none) ∧
    ∀ w, w < pages sz → ∃ pte frame, source.entry w = some pte ∧
      dir.entry w = some { pte with frame := frame } ∧ frame ∈ m.freelist ∧
      m'.page frame = m.page pte.frame := by
  unfold copyuvm at ran
  obtain ⟨⟨m₁, made⟩, setup, ran⟩ := bind_eq_ok.mp ran
  cases made with
  | none => cases ran
  | some pair =>
    obtain ⟨d₁, dir₁⟩ := pair
    obtain ⟨owns, tables, spent, free⟩ := setupkvm_spec setup
    obtain ⟨equal, tidy, spends, old, new⟩ := copyuvmLoop_spec ran (by omega)
      (separate.nodup.of_append_right.sublist spent.1.sublist)
      fun w pte found free => used w pte found (spent.1.subset free)
    subst equal
    refine ⟨?_, spent.trans spends, free, ?_, ?_⟩
    · exact tidy O outer hand d (owns O outer hand separate)
    · intro w above
      rw [old w (.inr above), entry_of_none (tables _)]
    · intro w below
      obtain ⟨pte, frame, found, entry, free, bytes⟩ := new w (Nat.zero_le w) below
      refine ⟨pte, frame, found, entry, spent.1.subset free, ?_⟩
      rw [bytes, spent.2 _ (used w pte found)]

theorem copyuvm_failed (ran : copyuvm m source sz = .ok (m', none))
    (separate : Separate (hand ++ m.freelist) outer) : Separate (hand ++ m'.freelist) outer := by
  unfold copyuvm at ran
  obtain ⟨⟨m₁, made⟩, setup, ran⟩ := bind_eq_ok.mp ran
  cases made with
  | none =>
    cases ran
    exact setupkvm_failed setup separate
  | some pair =>
    obtain ⟨d₁, dir₁⟩ := pair
    obtain ⟨owns, _⟩ := setupkvm_spec setup
    exact copyuvmLoop_failed ran (owns O outer hand separate)

end Ownership

end Xv6.Vm
