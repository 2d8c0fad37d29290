import Xv6.Vm.Total

/- `allocuvm` maps all of its pages or none. -/
namespace Xv6.Vm

open Function Outcome Pool List

variable {m m' : Mem} {d v : Nat} {dir dir' : Pgdir}

theorem keeps_walkpgdir {done : Bool} (ran : walkpgdir m dir v = (m', dir', done)) :
    Keeps m dir m' dir' := by
  unfold walkpgdir at ran
  split at ran
  · cases ran
    exact .refl m dir
  rename_i missing
  split at ran
  · rename_i empty
    cases ran
    rw [(kalloc_none empty).1]
    exact .refl m dir
  rename_i rest frame taken
  cases ran
  have none : frameOf 0 dir (.table (v / NPTENTRIES)) = none :=
    congrArg (Option.map Pgtab.frame) missing
  refine ⟨rfl, fun i f found => ?_, fun f has => ?_⟩
  · rw [frameOf_newTable 0 missing, update_of_ne]
    · exact found
    · intro same
      rw [same, none] at found
      cases found
  · rw [frameOf_newTable 0 missing]
    rw [(kalloc_some taken).1] at has
    exact has.take none

theorem keeps_mappages {pte : Pte} {done : Bool}
    (ran : mappages m dir v pte = .ok (m', dir', done)) :
    Keeps m dir m' dir' := by
  unfold mappages at ran
  split at ran
  · rename_i walked
    cases ran
    exact keeps_walkpgdir walked
  rename_i m₁ dir₁ walked
  split at ran
  · cases ran
  rename_i absent
  cases ran
  obtain ⟨table, found⟩ := (walkpgdir_spec walked).2.2 rfl
  have none : frameOf 0 dir₁ (.page v) = none :=
    congrArg (Option.map Pte.frame) (Option.not_isSome_iff_eq_none.mp absent)
  exact (keeps_walkpgdir walked).trans (keeps_setEntry found fun f has => has.fill none)

/-- What `allocuvm` has done from page `v` on: pages that were free are mapped and zero; or no page
is lost, and only free ones were written to. -/
def Grown (m : Mem) (dir : Pgdir) (newsz v : Nat) (result : Mem × Pgdir × Nat) : Prop :=
  result.2.2 = newsz ∧ Spends m result.1 ∧ (∀ w, v ≤ w → w < pages newsz → ∃ frame ∈ m.freelist,
      result.2.1.entry w = some ⟨frame, true, true⟩ ∧ result.1.page frame = fun _ => 0) ∨
  result.2.2 = 0 ∧ Keeps m dir result.1 result.2.1 ∧
    ∀ f, f ∉ m.freelist → f ∉ result.1.freelist → result.1.page f = m.page f

theorem allocuvmLoop_returns {oldsz newsz fuel : Nat} (real : dir.Real) (null : 0 ∉ m.freelist)
    (nodup : m.freelist.Nodup) (start : pages oldsz ≤ v) (enough : pages newsz ≤ v + fuel)
    (absent : ∀ w, v ≤ w → w < pages newsz → dir.entry w = none) :
    Returns (Grown m dir newsz v) (allocuvmLoop oldsz newsz fuel m dir v) := by
  induction fuel generalizing m dir v with
  | zero => exact .inl ⟨rfl, Spends.refl m, fun w lower upper => by omega⟩
  | succ fuel ih =>
    unfold allocuvmLoop
    split
    · rename_i below
      rw [lt_pages] at below
      split
      · rename_i rest empty
        rw [(kalloc_none empty).1]
        exact (deallocuvm_returns real).bind fun _ frees =>
          .inr ⟨rfl, frees.keeps, fun f _ used => frees.bytes f used⟩
      rename_i rest frame taken
      obtain ⟨list, bytes⟩ := kalloc_some taken
      rw [list, mem_cons, not_or] at null
      rw [list] at nodup
      obtain ⟨fresh, nodup⟩ := nodup_cons.mp nodup
      refine (mappages_returns (absent v (Nat.le_refl v) below)).result.bind ?_
      rintro ⟨m₁, dir₁, done⟩ mapped
      obtain ⟨works, fails⟩ := mappages_spec mapped
      obtain ⟨shorter, written⟩ := spends_mappages mapped
      have keeps := keeps_mappages mapped
      have others : ∀ f, f ∉ m.freelist → m₁.page f = m.page f := by
        intro f used
        rw [list, mem_cons, not_or] at used
        exact (written f used.2).trans ((update_of_ne used.1 _ _).trans (congrFun bytes f))
      have fewer : m₁.freelist <:+ m.freelist := by
        rw [list]
        exact shorter.trans (suffix_cons _ _)
      have kept : ∀ f, Has m.freelist (frameOf 0 dir) f → f = frame ∨
          Has m₁.freelist (frameOf 0 dir₁) f := by
        intro f has
        rcases has with member | used
        · rw [list, mem_cons] at member
          exact member.imp id fun member => keeps.pool f (.inl member)
        · exact .inr (keeps.pool f (.inr used))
      cases done with
      | false =>
        refine (deallocuvm_returns (real.congr (fails rfl).2)).bind fun result frees =>
          .inr ⟨rfl, ?_, ?_⟩
        · have after := keeps.trans frees.keeps
          refine ⟨after.kernel, after.tables, fun f has => ?_⟩
          rcases kept f has with same | has
          · exact .inl (same ▸ mem_cons_self)
          · exact (frees.keeps.pool f has).imp (mem_cons_of_mem _) id
        · intro f used after
          obtain ⟨other, after⟩ := not_or.mp (mt mem_cons.mpr after)
          exact (update_of_ne other _ _).trans ((frees.bytes f after).trans (others f used))
      | true =>
        obtain ⟨_, _, entries⟩ := works rfl
        have there : dir₁.entry v = some ⟨frame, true, true⟩ := by rw [entries v, if_pos rfl]
        have real₁ : dir₁.Real := by
          intro w pte found
          rw [entries w] at found
          split at found
          · cases found
            exact fun isNull => null.1 isNull.symm
          · exact real w pte found
        have ends :
            Returns (Grown m₁ dir₁ newsz (v + 1))
            (allocuvmLoop oldsz newsz fuel m₁ dir₁ (v + 1)) := by
          refine ih real₁ (fun free => null.2 (shorter.subset free)) (nodup.sublist shorter.sublist)
            (by omega) (by omega) fun w lower upper => ?_
          rw [entries w, if_neg (by omega)]
          exact absent w (by omega) upper
        refine ends.result.mono fun result ran => ?_
        rcases ends.of_ok ran with ⟨size, ⟨suffix, spent⟩, new⟩ | ⟨size, after, rest⟩
        · refine .inl ⟨size, ⟨?_, fun f used => ?_⟩, fun w lower upper => ?_⟩
          · exact suffix.trans fewer
          · exact (spent f fun free => used (fewer.subset free)).trans (others f used)
          by_cases here : w = v
          · rcases (allocuvmLoop_spec ran (by omega) (by omega)).2 with ⟨_, _, old⟩ | ⟨none, _⟩
            · refine ⟨frame, list ▸ mem_cons_self, ?_, ?_⟩
              · rw [here, old v (.inl (Nat.lt_succ_self v)), there]
              · rw [spent frame fun free => fresh (shorter.subset free), written frame fresh]
                exact update_self _ _ _
            · rw [← size, none] at below
              exact absurd below (Nat.not_lt_zero v)
          · obtain ⟨page, free, found⟩ := new w (by omega) upper
            exact ⟨page, fewer.subset free, found⟩
        · have both := keeps.trans after
          refine .inr ⟨size, ⟨both.kernel, both.tables, fun f has => ?_⟩, fun f used free => ?_⟩
          · refine after.pool f ((kept f has).elim (fun same => .inr ⟨.page v, ?_⟩) id)
            rw [same]
            exact congrArg (Option.map Pte.frame) there
          · exact (rest f (fun free => used (fewer.subset free)) free).trans (others f used)
    · rename_i above
      rw [lt_pages] at above
      exact .inl ⟨rfl, Spends.refl m, fun w lower upper => by omega⟩

section Owned

variable {O : Type} {outer : O → Option Nat} {hand : List Nat}

theorem Owned.unused (owned : Owned outer hand m d dir) {u : SpaceUse} {f : Nat}
    (used : frameOf d dir u = some f) : f ∉ hand ∧ f ∉ m.freelist :=
  not_or.mp (mt mem_append.mpr (owned.apart (.inr u) f used))

theorem Owned.real (owned : Owned outer (0 :: hand) m d dir) : dir.Real := by
  intro v pte found null
  have used : frameOf d dir (.page v) = some pte.frame := congrArg (Option.map Pte.frame) found
  exact (owned.unused used).1 (null ▸ mem_cons_self)

theorem allocuvm_grown {oldsz newsz : Nat} (le : oldsz ≤ newsz) (below : newsz < KERNBASE)
    (absent : ∀ v, pages oldsz ≤ v → v < pages newsz → dir.entry v = none)
    (owned : Owned outer (0 :: hand) m d dir) :
    ∃ m' dir' sz, allocuvm m dir oldsz newsz = .ok (m', dir', sz) ∧
      Grown m dir newsz (pages oldsz) (m', dir', sz) := by
  obtain ⟨null, nodup⟩ := nodup_cons.mp owned.nodup
  have ends : Returns (Grown m dir newsz (pages oldsz)) (allocuvm m dir oldsz newsz) := by
    unfold allocuvm
    rw [if_neg (Nat.not_le_of_lt below), if_neg (Nat.not_lt_of_le le)]
    exact allocuvmLoop_returns owned.real (fun free => null (mem_append_right _ free))
      (nodup.sublist (sublist_append_right _ _)) (Nat.le_refl _) (by omega) absent
  cases outcome : allocuvm m dir oldsz newsz with
  | error stop =>
    rw [outcome] at ends
    exact ends.elim
  | ok result => exact ⟨result.1, result.2.1, result.2.2, rfl, ends.of_ok outcome⟩

/-- The entries outside of the range stay, and all of them without memory. -/
theorem allocuvm_entries {oldsz newsz sz : Nat} (le : oldsz ≤ newsz)
    (absent : ∀ v, pages oldsz ≤ v → v < pages newsz → dir.entry v = none)
    (ran : allocuvm m dir oldsz newsz = .ok (m', dir', sz)) :
    (∀ v, ¬ (pages oldsz ≤ v ∧ v < pages newsz) → dir'.entry v = dir.entry v) ∧
    (sz = 0 → ∀ v, dir'.entry v = dir.entry v) := by
  rcases (allocuvm_spec ran).2 with ⟨size, _, _, _, old⟩ | ⟨_, less, _⟩ | ⟨_, same | ⟨_, gone⟩⟩
  · refine ⟨fun v outside => old v (by omega), fun zero v => old v (.inr ?_)⟩
    rw [← size, zero]
    exact Nat.zero_le v
  · omega
  · exact ⟨fun v _ => same v, fun _ => same⟩
  have same : ∀ v, dir'.entry v = dir.entry v := by
    intro v
    rw [gone v]
    split
    · rename_i inside
      rw [absent v inside.1 inside.2]
    · rfl
  exact ⟨fun v _ => same v, fun _ => same⟩

/-- `allocuvm` returns: it has mapped a page that was free, and is zero now, at each page address of
the range and nothing else, or the mappings are what they were and each page that it took is free
again or a new page table. Page number zero is neither free nor in use. -/
theorem allocuvm_all_or_nothing [DecidableEq O] {oldsz newsz : Nat} (le : oldsz ≤ newsz)
    (below : newsz < KERNBASE) (absent : ∀ v, pages oldsz ≤ v → v * PGSIZE < newsz →
    dir.entry v = none) (owned : Owned outer (0 :: hand) m d dir) :
    ∃ m' dir' sz, allocuvm m dir oldsz newsz = .ok (m', dir', sz) ∧
      Owned outer (0 :: hand) m' d dir' ∧
      (sz = newsz ∧ (∀ v, pages oldsz ≤ v → v * PGSIZE < newsz → ∃ frame ∈ m.freelist,
          dir'.entry v = some ⟨frame, true, true⟩ ∧ m'.page frame = fun _ => 0) ∧
        (∀ v, ¬ (pages oldsz ≤ v ∧ v * PGSIZE < newsz) → dir'.entry v = dir.entry v) ∨
      sz = 0 ∧ (∀ v, dir'.entry v = dir.entry v) ∧ ∀ frame ∈ m.freelist, frame ∈ m'.freelist ∨
          ∃ i, dir.pgtab i = none ∧ (dir'.pgtab i).map Pgtab.frame = some frame) := by
  simp only [lt_pages] at absent ⊢
  obtain ⟨m', dir', sz, ran, grown⟩ := allocuvm_grown le below absent owned
  obtain ⟨outside, unchanged⟩ := allocuvm_entries le absent ran
  refine ⟨m', dir', sz, ran, (allocuvm_spec ran).1 O outer _ d owned, ?_⟩
  rcases grown with ⟨size, _, new⟩ | ⟨size, keeps, _⟩
  · exact .inl ⟨size, new, outside⟩
  have same := unchanged size
  refine .inr ⟨size, same, fun frame free => ?_⟩
  have fresh : ∀ u, frameOf d dir u ≠ some frame := fun u used => (owned.unused used).2 free
  rcases keeps.pool frame (.inl free) with still | ⟨use, used⟩
  · exact .inl still
  cases use with
  | self =>
    obtain ⟨null, _⟩ := nodup_cons.mp owned.nodup
    cases used
    exact absurd (mem_append_right _ free) null
  | kernel i =>
    change dir'.kernel[i]? = some frame at used
    rw [keeps.kernel] at used
    exact absurd used (fresh (.kernel i))
  | table i =>
    refine .inr ⟨i, ?_, used⟩
    by_contra present
    obtain ⟨table, found⟩ := Option.ne_none_iff_exists'.mp present
    have before : frameOf 0 dir (.table i) = some table.frame :=
      congrArg (Option.map Pgtab.frame) found
    cases (keeps.tables i _ before).symm.trans used
    exact fresh (.table i) before
  | page v =>
    change (dir'.entry v).map Pte.frame = some frame at used
    rw [same v] at used
    exact absurd used (fresh (.page v))

/-- Two pages are asked for, but one of the two that are free becomes a page table. -/
theorem allocuvm_all_or_nothing_small :
    let m := memset ⟨[5, 6], fun _ _ => 7⟩ 1 0
    ∃ m' dir' sz, allocuvm m ⟨[], fun _ => none⟩ 0 8192 = .ok (m', dir', sz) ∧ m'.freelist = [5] ∧
      Owned (fun _ : Unit => none) [0] m' 1 dir' ∧ sz = 0 ∧ (∀ v, dir'.entry v = none) ∧
      ∀ frame ∈ m.freelist, frame ∈ m'.freelist ∨ ∃ i,
        (dir'.pgtab i).map Pgtab.frame = some frame := by
  have separate : Separate [0, 1, 5, 6] fun _ : Unit => none := ⟨by decide, nofun, nofun⟩
  have taken : kalloc ⟨[1, 5, 6], fun _ _ => 7⟩ = (⟨[5, 6], fun _ _ => 7⟩, some 1) := rfl
  have owned : Owned (fun _ : Unit => none) [0] _ 1 _ := owned_newDir taken separate
  have absent : ∀ v, pages 0 ≤ v → v * PGSIZE < 8192 → Pgdir.entry ⟨[], fun _ => none⟩ v = none :=
    fun _ _ _ => rfl
  obtain ⟨m', dir', sz, ran, owned, ends⟩ :=
    allocuvm_all_or_nothing (Nat.zero_le _) (by decide) absent owned
  have failed :
    ((allocuvm (memset ⟨[5, 6], fun _ _ => 7⟩ 1 0) ⟨[], fun _ => none⟩ 0 8192).toOption.map fun r =>
      (r.1.freelist, r.2.2)) = some ([5], 0) := by decide +kernel
  rw [ran] at failed
  obtain ⟨list, none⟩ := Prod.mk.inj (Option.some.inj failed)
  rcases ends with ⟨done, _⟩ | ⟨_, same, back⟩
  · cases none.symm.trans done
  · refine ⟨m', dir', sz, ran, list, owned, none, same, fun frame free => ?_⟩
    exact (back frame free).imp id (Exists.imp fun _ => And.right)

end Owned

end Xv6.Vm
