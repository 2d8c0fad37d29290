import Xv6.Process.Ownership
import Xv6.Vm.Grow

/- `growproc` has the effect that it returns, or none, except when it shrinks to nothing or
below. -/
namespace Xv6.Process

open Calls Function Outcome Vm

variable {k t : Kernel} {p d : Nat} {dir dir' : Pgdir} {reserved : List Nat} {n : Int}

/-- The pages below the size are mapped, and no others. -/
def Mapped (dir : Pgdir) (sz : Nat) : Prop := ∀ v, dir.entry v ≠ none ↔ v < pages sz

/-- Page `v` is mapped as before, with the same contents. -/
def SamePage (m : Mem) (dir : Pgdir) (m' : Mem) (dir' : Pgdir) (v : Nat) : Prop :=
  dir'.entry v = dir.entry v ∧ ∀ pte ∈ dir.entry v, m'.page pte.frame = m.page pte.frame

/-- The size is changed by `n` and the mapping follows it, with new pages zero; or `growproc` fails
and nothing is different. -/
def Exact (k : Kernel) (master d : Nat) (dir : Pgdir) (n : Int) (t : Kernel) (done : Bool) : Prop :=
  ∃ dir', t.pgdirs d = some dir' ∧
    (done = true ∧ ((t.proc master).sz : Int) = (k.proc master).sz + n ∧
      Mapped dir' (t.proc master).sz ∧
      (∀ v, v < pages (k.proc master).sz → v < pages (t.proc master).sz →
        SamePage k.mem dir t.mem dir' v) ∧
      (∀ v, pages (k.proc master).sz ≤ v → ∀ pte ∈ dir'.entry v,
        pte.user = true ∧ pte.write = true ∧ t.mem.page pte.frame = fun _ => 0) ∨
    done = false ∧ (t.proc master).sz = (k.proc master).sz ∧ ∀ v, SamePage k.mem dir t.mem dir' v)

/-- What `growproc` asks for. -/
def resize (m : Mem) (dir : Pgdir) (sz : Nat) (n : Int) : Except Stop (Mem × Pgdir × Nat) :=
  if n > 0 then allocuvm m dir sz (grown sz n) else deallocuvm m dir sz (grown sz n)

/-- It is changed by `n`, or to zero without an effect. -/
def ExactSize (m : Mem) (dir : Pgdir) (sz : Nat) (n : Int) (m' : Mem) (dir' : Pgdir)
    (size : Nat) : Prop :=
  size ≠ 0 ∧ (size : Int) = sz + n ∧ Mapped dir' size ∧
    (∀ v, v < pages sz → v < pages size → SamePage m dir m' dir' v) ∧
    (∀ v, pages sz ≤ v → ∀ pte ∈ dir'.entry v,
      pte.user = true ∧ pte.write = true ∧ m'.page pte.frame = fun _ => 0) ∨
  size = 0 ∧ ∀ v, SamePage m dir m' dir' v

theorem growproc_of_resized {mem : Mem} {size : Nat} (nonzero : n ≠ 0)
    (link : (k.proc (k.masterOf p)).pgdir = some d) (present : k.pgdirs d = some dir)
    (resized : resize k.mem dir (k.proc (k.masterOf p)).sz n = .ok (mem, dir', size)) :
    growproc k p n = if size = 0 then .ok ((k.setMem mem).setDir d (some dir'), false)
      else .ok (((k.setMem mem).setDir d (some dir')).setProc (k.masterOf p)
        { k.proc (k.masterOf p) with sz := size }, true) := by
  unfold growproc
  unfold resize grown at resized
  dsimp only
  rw [if_neg nonzero, dir_eq_ok.mpr ⟨link, present⟩]
  show (if n > 0 then _ else _) = _
  split at resized
  all_goals
    rename_i sign
    simp only [sign, if_true, if_false]
    rw [resized]
    rfl

section Space

variable {O : Type} {outer : O → Option Nat} {hand : List Nat} {m m' : Mem} {v sz newsz : Nat}

theorem unused_frame (owned : Owned outer hand m d dir) {pte : Pte}
    (found : dir.entry v = some pte) :
    pte.frame ∉ m.freelist := by
  have used : frameOf d dir (.page v) = some pte.frame := congrArg (Option.map Pte.frame) found
  exact (owned.unused used).2

/-- A page that is mapped before and after has its bytes if only pages were written to that are free
at one of these times. -/
theorem samePage_of_entry (before : Owned outer hand m d dir) (after : Owned outer hand m' d dir')
    (bytes : ∀ f, f ∉ m.freelist → f ∉ m'.freelist → m'.page f = m.page f)
    (same : dir'.entry v = dir.entry v) : SamePage m dir m' dir' v :=
  ⟨same, fun _ found => bytes _ (unused_frame before found) (unused_frame after (same.trans found))⟩

theorem Mapped.absent (mapped : Mapped dir sz) (above : pages sz ≤ v) : dir.entry v = none := by
  by_contra present
  exact absurd ((mapped v).mp present) (Nat.not_lt_of_le above)

variable [DecidableEq O]

section

variable (owned : Owned outer (0 :: hand) m d dir) (mapped : Mapped dir sz)
include owned mapped

theorem allocuvm_mapped (le : sz ≤ newsz) (below : newsz < KERNBASE) :
    ∃ m' dir' size, allocuvm m dir sz newsz = .ok (m', dir', size) ∧
      (size = newsz ∧ Mapped dir' newsz ∧ (∀ v, v < pages sz → SamePage m dir m' dir' v) ∧
        (∀ v, pages sz ≤ v → ∀ pte ∈ dir'.entry v,
          pte.user = true ∧ pte.write = true ∧ m'.page pte.frame = fun _ => 0) ∨
      size = 0 ∧ ∀ v, SamePage m dir m' dir' v) := by
  obtain ⟨m', dir', size, ran, grown⟩ :=
    allocuvm_grown le below (fun v above _ => mapped.absent above) owned
  obtain ⟨outside, unchanged⟩ := allocuvm_entries le (fun v above _ => mapped.absent above) ran
  have after := (allocuvm_spec ran).1 O outer _ d owned
  refine ⟨m', dir', size, ran, ?_⟩
  rcases grown with ⟨isSize, spends, new⟩ | ⟨isSize, _, bytes⟩
  · have more := pages_le le
    refine .inl ⟨isSize, fun v => ?_, fun v inside => ?_, fun v above pte found => ?_⟩
    · by_cases isNew : pages sz ≤ v ∧ v < pages newsz
      · obtain ⟨frame, _, found, _⟩ := new v isNew.1 isNew.2
        exact iff_of_true (by rw [found]; exact Option.some_ne_none _) isNew.2
      · rw [outside v isNew, mapped v]
        omega
    · exact samePage_of_entry owned after (fun f used _ => spends.2 f used) (outside v (by omega))
    · by_cases isNew : v < pages newsz
      · obtain ⟨frame, _, found', zero⟩ := new v above isNew
        cases found'.symm.trans found
        exact ⟨rfl, rfl, zero⟩
      · rw [outside v fun inside => isNew inside.2, mapped.absent above] at found
        cases found
  · exact .inr ⟨isSize, fun v => samePage_of_entry owned after bytes (unchanged isSize v)⟩

theorem deallocuvm_mapped (less : newsz < sz) : ∃ m' dir',
    deallocuvm m dir sz newsz = .ok (m', dir', newsz) ∧
      Mapped dir' newsz ∧ ∀ v, v < pages newsz → SamePage m dir m' dir' v := by
  obtain ⟨⟨m', dir', size⟩, outcome, frees⟩ := (deallocuvm_returns owned.real).ok
  obtain ⟨tidy, isSize, entries⟩ := deallocuvm_spec outcome
  have fewer := pages_le (Nat.le_of_lt less)
  refine ⟨m', dir', ?_, fun v => ?_, fun v inside => ?_⟩
  · rw [outcome, isSize, Nat.min_eq_right (Nat.le_of_lt less)]
  · rw [entries v]
    split
    · exact iff_of_false (absurd rfl) (by omega)
    · rw [mapped v]
      omega
  · refine samePage_of_entry owned (tidy O outer _ d owned) (fun f _ used => frees.bytes f used) ?_
    rw [entries v, if_neg (by omega)]

theorem resize_exact (nonzero : n ≠ 0) (low : -2 ^ 31 ≤ n) (high : n < 2 ^ 31)
    (small : sz < KERNBASE) :
    ∃ m' dir' size, resize m dir sz n = .ok (m', dir', size) ∧
      (ExactSize m dir sz n m' dir' size ↔ 0 ≤ n ∨ sz = 0 ∨ 0 < (sz : Int) + n) := by
  have unchanged : ∀ v, SamePage m dir m dir v := fun v => ⟨rfl, fun _ _ => rfl⟩
  have wrapped : (grown sz n : Int) = if 0 ≤ sz + n then sz + n else sz + n + 2 ^ 32 := by
    unfold grown KERNBASE at *
    split
    all_goals omega
  unfold resize
  by_cases grows : n > 0
  · rw [if_pos grows]
    rw [if_pos (by omega)] at wrapped
    by_cases tooLarge : grown sz n ≥ KERNBASE
    · exact ⟨m, dir, 0, if_pos tooLarge, iff_of_true (.inr ⟨rfl, unchanged⟩) (by omega)⟩
    obtain ⟨m', dir', size, ran, ends⟩ :=
      allocuvm_mapped owned mapped (show sz ≤ grown sz n by omega) (by omega)
    refine ⟨m', dir', size, ran, iff_of_true (ends.imp ?_ id) (by omega)⟩
    rintro ⟨isSize, mapped', same, new⟩
    rw [isSize]
    exact ⟨by omega, wrapped, mapped', fun v inside _ => same v inside, new⟩
  · rw [if_neg grows]
    split at wrapped
    · obtain ⟨m', dir', ran, mapped', same⟩ :=
        deallocuvm_mapped owned mapped (show grown sz n < sz by omega)
      refine ⟨m', dir', _, ran, ?_⟩
      constructor
      · rintro (some | ⟨none, same⟩)
        · omega
        · have gone := (same 0).1
          rw [mapped'.absent (by rw [none]; exact Nat.le_refl 0)] at gone
          have empty := mt (mapped 0).mpr (not_not.mpr gone.symm)
          unfold pages PGSIZE at empty
          omega
      · intro some
        have fewer := pages_le (show grown sz n ≤ sz by omega)
        refine .inl ⟨by omega, wrapped, mapped', fun v _ => same v, fun v above pte found => ?_⟩
        cases (mapped'.absent (Nat.le_trans fewer above)).symm.trans found
    · refine ⟨m, dir, sz, if_pos (by unfold KERNBASE at small; omega), ?_⟩
      constructor
      · rintro (some | none)
        · omega
        · omega
      · exact fun some => .inr ⟨by omega, unchanged⟩

end

end Space

/-- What has to be shown of the new mapping. -/
theorem exact_iff_resized {mem : Mem} {size : Nat} (nonzero : n ≠ 0)
    (link : (k.proc (k.masterOf p)).pgdir = some d) (present : k.pgdirs d = some dir)
    (resized : resize k.mem dir (k.proc (k.masterOf p)).sz n = .ok (mem, dir', size)) :
    (∃ t done, growproc k p n = .ok (t, done) ∧ Exact k (k.masterOf p) d dir n t done) ↔
      ExactSize k.mem dir (k.proc (k.masterOf p)).sz n mem dir' size := by
  have ran := growproc_of_resized nonzero link present resized
  have directory : ((k.setMem mem).setDir d (some dir')).pgdirs d = some dir' := update_self _ _ _
  split at ran
  · rename_i failed
    constructor
    · rintro ⟨t, done, ran', dir'', found, exact⟩
      cases ran.symm.trans ran'
      cases directory.symm.trans found
      exact exact.elim (fun worked => absurd worked.1 Bool.false_ne_true) fun same =>
        .inr ⟨failed, same.2.2⟩
    · exact fun exact => exact.elim (fun worked => absurd failed worked.1) fun same =>
        ⟨_, _, ran, dir', directory, .inr ⟨rfl, rfl, same.2⟩⟩
  · rename_i worked
    have isSize : ((((k.setMem mem).setDir d (some dir')).setProc (k.masterOf p)
        { k.proc (k.masterOf p) with sz := size }).proc (k.masterOf p)).sz = size := by
      rw [setProc_self]
    constructor
    · rintro ⟨t, done, ran', dir'', found, exact⟩
      cases ran.symm.trans ran'
      cases directory.symm.trans found
      rw [isSize] at exact
      exact exact.elim (fun exact => .inl ⟨worked, exact.2⟩) fun same =>
        absurd same.1.symm Bool.false_ne_true
    · rintro (⟨_, exact⟩ | ⟨zero, _⟩)
      · refine ⟨_, _, ran, dir', directory, .inl ⟨rfl, ?_⟩⟩
        rw [isSize]
        exact exact
      · exact absurd zero worked

/-- `growproc` is exact or has no effect, if and only if it does not shrink a process that has
memory to nothing, or by more than there is. -/
theorem growproc_exact (low : -2 ^ 31 ≤ n) (high : n < 2 ^ 31) (sound : k.Sound (0 :: reserved))
    (link : (k.proc (k.masterOf p)).pgdir = some d) (present : k.pgdirs d = some dir)
    (small : (k.proc (k.masterOf p)).sz < KERNBASE)
    (mapped : Mapped dir (k.proc (k.masterOf p)).sz) :
    (∃ t done, growproc k p n = .ok (t, done) ∧ Exact k (k.masterOf p) d dir n t done) ↔
      0 ≤ n ∨ (k.proc (k.masterOf p)).sz = 0 ∨ 0 < ((k.proc (k.masterOf p)).sz : Int) + n := by
  have owned : Owned _ (0 :: reserved) k.mem d dir := separate_split sound present
  by_cases zero : n = 0
  · refine iff_of_true ⟨k, true, if_pos zero, dir, present,
      .inl ⟨rfl, ?_, mapped, ?_, ?_⟩⟩ (by omega)
    · omega
    · exact fun v _ _ => ⟨rfl, fun _ _ => rfl⟩
    · intro v above pte found
      cases (mapped.absent above).symm.trans found
  · obtain ⟨m, dir', size, ran, judged⟩ := resize_exact owned mapped zero low high small
    exact (exact_iff_resized zero link present ran).trans judged

/-- The first process grows by a page. -/
theorem growproc_exact_first : ∃ k d dir t, userinit (Kernel.boot smallMem) (fun _ => 0) = .ok k ∧
    (k.proc 0).sz = PGSIZE ∧ Mapped dir PGSIZE ∧ growproc k 0 4096 = .ok (t, true) ∧
    Exact k 0 d dir 4096 t true := by
  obtain ⟨k, _, booted, _, isInit, size, root, grows⟩ :=
    run_small (fun k (_ : Unit) => some k) id []
    (fun k _ => k.initproc = some 0 ∧ (k.proc 0).sz = PGSIZE ∧ k.masterOf 0 = 0 ∧
      (growproc k 0 4096).toOption.map Prod.snd = some true) (by decide +kernel)
  obtain ⟨nodup, enough⟩ := Sizes.smallMem_real
  have starts := Stacks.starts_boot nodup.of_cons enough booted isInit
  have good := (consistent_userinit [0] nodup booted).1
  obtain ⟨d, dir, link, present⟩ := good.spaces.rooted 0 (.inl starts.live.settled)
  have mapped : Mapped dir (k.proc 0).sz := by
    intro v
    have image : (Stacks.entryOf k 0 v).isSome ↔ v < pages (k.proc 0).sz := starts.image v
    rwa [Stacks.entryOf_eq link present, Option.isSome_iff_ne_none] at image
  have small : (k.proc 0).sz < KERNBASE := starts.size.2
  obtain ⟨t, done, ran, exact⟩ := (growproc_exact (by omega) (by omega) good.sound
    (root.symm ▸ link) present (root.symm ▸ small) (root.symm ▸ mapped)).mpr
    (.inl (by omega : (0 : Int) ≤ 4096))
  rw [root] at exact
  obtain ⟨⟨u, yes⟩, ran', isDone⟩ := Option.map_eq_some_iff.mp grows
  cases isDone
  cases ran.symm.trans (toOption_eq_some.mp ran')
  exact ⟨k, d, dir, t, booted, size, size ▸ mapped, ran, exact⟩

/-- Whether page 0 of the first process is mapped. -/
def firstMapped (k : Kernel) : Bool := (((k.proc 0).pgdir.bind k.pgdirs).bind (·.entry 0)).isSome

/-- Shrinking to nothing fails after the page is gone; shrinking by more than there is succeeds
without effect. -/
theorem growproc_inexact :
    (bootSmall.map fun k => ((k.proc 0).sz, firstMapped k)) = some (4096, true) ∧
    (bootSmall.bind fun k => (growproc k 0 (-4096)).toOption.map fun r =>
      (r.2, (r.1.proc 0).sz, firstMapped r.1)) = some (false, 4096, false) ∧
    (bootSmall.bind fun k => (growproc k 0 (-4097)).toOption.map fun r =>
      (r.2, (r.1.proc 0).sz, firstMapped r.1)) = some (true, 4096, true) := by
  refine ⟨?_, ?_, ?_⟩
  all_goals decide +kernel

end Xv6.Process
