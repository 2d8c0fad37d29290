import Xv6.Process.Model
import Xv6.Vm.Frames

/- The uses of physical pages by the processes: kernel stacks and address spaces. -/
namespace Xv6.Process

open Function Pool Vm

inductive Use where
  | kstack (p : Nat)
  | space (d : Nat) (use : SpaceUse)
deriving DecidableEq

/-- The page of each use. -/
def uses (kstack : Nat → Option Nat) (pgdirs : Nat → Option Pgdir) : Use → Option Nat
  | .kstack p => kstack p
  | .space d use => (pgdirs d).bind fun dir => frameOf d dir use

variable {kstack : Nat → Option Nat} {pgdirs : Nat → Option Pgdir} {free reserved : List Nat}
    {m m' : Mem}
  {d p frame : Nat} {dir dir' : Pgdir}

theorem uses_stack (kstack : Nat → Option Nat) (pgdirs : Nat → Option Pgdir) (p : Nat)
    (page : Option Nat) :
    uses (update kstack p page) pgdirs = update (uses kstack pgdirs) (.kstack p) page := by
  funext use
  cases use with
  | kstack q =>
    show update kstack p page q = _
    rw [update_apply, update_apply]
    simp only [Use.kstack.injEq]
    rfl
  | space e use =>
    rw [update_of_ne Use.noConfusion]
    rfl

theorem separate_takeStack (separate : Separate (reserved ++ frame :: free) (uses kstack pgdirs))
    (p : Nat) :
    Separate (reserved ++ free) (uses (update kstack p (some frame)) pgdirs) := by
  rw [uses_stack]
  exact separate.take (.kstack p)

theorem separate_giveStack (separate : Separate (reserved ++ free) (uses kstack pgdirs))
    (used : kstack p = some frame) :
    Separate (reserved ++ frame :: free) (uses (update kstack p none) pgdirs) := by
  rw [uses_stack]
  have given := separate.give (u := Use.kstack p) used
  exact given.perm List.perm_middle.symm

theorem separate_forget {fewer : Nat → Option Nat} (separate : Separate free (uses kstack pgdirs))
    (less : ∀ p f, fewer p = some f → kstack p = some f) : Separate free (uses fewer pgdirs) := by
  apply separate.congr
  intro use f used
  cases use with
  | kstack p => exact less p f used
  | space d use => exact used

/-- The address space of `d` beside all other uses. -/
theorem separate_split (separate : Separate free (uses kstack pgdirs))
    (present : pgdirs d = some dir) :
    Separate free (Sum.elim (uses kstack (update pgdirs d none)) (frameOf d dir)) := by
  apply separate.embed (Sum.elim id (.space d))
  · intro use f used
    cases use with
    | inl use =>
      cases use with
      | kstack p => exact used
      | space e use =>
        change (update pgdirs d none e).bind _ = some f at used
        rw [update_apply] at used
        split at used
        · cases used
        · exact used
    | inr use =>
      show (pgdirs d).bind _ = some f
      rw [present]
      exact used
  · intro first second f used used' same
    -- a use of `d` on the left has no page
    have gone : ∀ use, Sum.elim (uses kstack (update pgdirs d none)) (frameOf d dir)
        (Sum.inl (.space d use)) = none := by
      intro use
      show (update pgdirs d none d).bind _ = none
      rw [update_self]
      rfl
    cases first with
    | inl first =>
      cases second with
      | inl second => exact congrArg _ same
      | inr second =>
        change first = .space d second at same
        rw [same, gone] at used
        cases used
    | inr first =>
      cases second with
      | inl second =>
        change .space d first = second at same
        rw [← same, gone] at used'
        cases used'
      | inr second =>
        change Use.space d first = .space d second at same
        cases same
        rfl

/-- An address space joins the other uses, in the place of one with the same directory page. -/
theorem separate_join (separate : Separate free (Sum.elim (uses kstack pgdirs) (frameOf d dir))) :
    Separate free (uses kstack (update pgdirs d (some dir))) := by
  apply separate.embed fun use =>
    match use with
    | .kstack p => Sum.inl (.kstack p)
    | .space e use => if e = d then Sum.inr use else Sum.inl (.space e use)
  · intro use f used
    cases use with
    | kstack p => exact used
    | space e use =>
      change (update pgdirs d (some dir) e).bind _ = some f at used
      rw [update_apply] at used
      dsimp only
      split at used
      · rename_i here
        rw [if_pos here, ← here]
        exact used
      · rename_i other
        rw [if_neg other]
        exact used
  · intro first second f used used' same
    cases first with
    | kstack p =>
      cases second with
      | kstack q =>
        cases same
        rfl
      | space e use =>
        dsimp only at same
        split at same
        · cases same
        · cases same
    | space e use =>
      cases second with
      | kstack q =>
        dsimp only at same
        split at same
        · cases same
        · cases same
      | space e' use' =>
        dsimp only at same
        split at same
        · rename_i here
          split at same
          · rename_i there
            cases same
            rw [here, there]
          · cases same
        · split at same
          · cases same
          · cases same
            rfl

section

variable (separate : Separate (reserved ++ m.freelist) (uses kstack pgdirs))
    (present : pgdirs d = some dir)
include separate present

theorem separate_space (tidy : Vm.Tidy m dir m' dir') :
    Separate (reserved ++ m'.freelist) (uses kstack (update pgdirs d (some dir'))) := by
  have owned := tidy _ _ reserved d (separate_split separate present)
  have joined := separate_join owned
  rw [update_idem] at joined
  exact joined

theorem separate_freevm (freed : freevm m d dir = .ok m') :
    Separate (reserved ++ m'.freelist) (uses kstack (update pgdirs d none)) :=
  have owned : Owned _ reserved m d dir := separate_split separate present
  freevm_spec freed owned

end

/-- Every page is free or has one use, and the reserved pages are neither. -/
def Kernel.Sound (reserved : List Nat) (k : Kernel) : Prop :=
  Separate (reserved ++ k.mem.freelist) (uses (fun p => (k.proc p).kstack) k.pgdirs)

end Xv6.Process
