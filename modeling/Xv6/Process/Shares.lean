import Mathlib.Algebra.BigOperators.Group.Finset.Basic
import Mathlib.Algebra.Order.BigOperators.Group.Finset
import Mathlib.Tactic.Ring
import Xv6.Process.Sched

/- The shares of the CPU. What the holders have and what is left for the queues is accounted for in
`stride_arr`, over all admissions and exits. -/
namespace Xv6.Process.Sched

open Outcome Calls Dispatch Seats Function Option

variable {k t u : Kernel} {p q : Nat} {j : Nat} {portion share stride : Int} {m : Machine}
    {event : Event}

/-- What an entry counts: its share, if it is in use. -/
def counted (entry : Stride) : Int := if entry.stride ≠ 0 then entry.share else 0

/-- The shares of the entries in use, without entry 0. -/
def activeShares (k : Kernel) : Int := ∑ i ∈ Finset.range (NPROC - 1), counted (k.strides (i + 1))

theorem activeShares_congr (same : ∀ i, i ≠ 0 → counted (t.strides i) = counted (k.strides i)) :
    activeShares t = activeShares k :=
  Finset.sum_congr rfl fun i _ => same (i + 1) (Nat.succ_ne_zero i)

theorem activeShares_set (inside : j < NPROC) (other : j ≠ 0)
    (same : ∀ i, i ≠ 0 → i ≠ j → t.strides i = k.strides i) :
    activeShares t = activeShares k - counted (k.strides j) + counted (t.strides j) := by
  obtain ⟨i, rfl⟩ := Nat.exists_eq_succ_of_ne_zero other
  have mem : i ∈ Finset.range (NPROC - 1) := Finset.mem_range.mpr (by omega)
  have before := Finset.add_sum_erase _ (fun i => counted (k.strides (i + 1))) mem
  have after := Finset.add_sum_erase _ (fun i => counted (t.strides (i + 1))) mem
  have rest : ∑ x ∈ (Finset.range (NPROC - 1)).erase i, counted (t.strides (x + 1)) =
      ∑ x ∈ (Finset.range (NPROC - 1)).erase i, counted (k.strides (x + 1)) := by
    refine Finset.sum_congr rfl fun x inner => ?_
    have differ := (Finset.mem_erase.mp inner).1
    rw [same (x + 1) (Nat.succ_ne_zero x) (by omega)]
  unfold activeShares
  rw [← before, ← after, rest]
  show _ = counted (k.strides (i + 1)) + _ - counted (k.strides (i + 1)) +
    counted (t.strides (i + 1))
  ring

theorem counted_nonneg {entry : Stride} (nonneg : 0 ≤ entry.share) : 0 ≤ counted entry := by
  unfold counted
  split
  · exact nonneg
  · exact Int.le_refl 0

/-- The sum that `set_cpu_share` computes does not overflow. -/
theorem total_eq (nonneg : ∀ j, 0 ≤ (k.strides j).share) (small : 0 ≤ portion)
    (bound : portion + activeShares k < 2 ^ 31) : total k portion = portion + activeShares k := by
  have upTo : ∀ n, portion + ∑ i ∈ Finset.range n, counted (k.strides (i + 1)) < 2 ^ 31 →
      (List.range n).foldl (fun total i =>
        if (k.strides (i + 1)).stride ≠ 0 then int (total + (k.strides (i + 1)).share) else total)
        portion = portion + ∑ i ∈ Finset.range n, counted (k.strides (i + 1)) := by
    intro n
    induction n with
    | zero =>
      intro _
      rw [Finset.sum_range_zero, Int.add_zero]
      rfl
    | succ n ih =>
      intro bound
      rw [Finset.sum_range_succ] at bound ⊢
      have least := counted_nonneg (nonneg (n + 1))
      have rest : 0 ≤ ∑ i ∈ Finset.range n, counted (k.strides (i + 1)) :=
        Finset.sum_nonneg fun i _ => counted_nonneg (nonneg (i + 1))
      rw [List.range_succ, List.foldl_append, ih (by omega), List.foldl_cons, List.foldl_nil]
      generalize ∑ i ∈ Finset.range n, counted (k.strides (i + 1)) = sum at bound rest ⊢
      unfold counted at least bound ⊢
      split
      · rename_i active
        rw [if_pos active] at bound least
        rw [int_eq (by omega) (by omega)]
        omega
      · omega
  exact upTo (NPROC - 1) bound

theorem divide_eq (positive : 0 ≤ share) (divided : divide MAXTICKET share = .ok stride) :
    0 < share ∧ stride = MAXTICKET / share := by
  unfold divide at divided
  split at divided
  · cases divided
  rename_i nonzero
  cases divided
  refine ⟨by omega, ?_⟩
  have exact : (MAXTICKET : Int).tdiv share = MAXTICKET / share :=
    Int.tdiv_eq_ediv_of_nonneg (by decide)
  have lower : 0 ≤ (MAXTICKET : Int) / share := Int.ediv_nonneg (by decide) positive
  have upper : (MAXTICKET : Int) / share ≤ MAXTICKET := Int.ediv_le_self _ (by decide)
  have ticket : (MAXTICKET : Int) < 2 ^ 31 := by decide
  rw [exact, int_eq (by omega) (by omega)]

theorem stride_bounds (positive : 0 < share) (small : share ≤ MAXTICKET) :
    0 < (MAXTICKET : Int) / share ∧ (MAXTICKET : Int) / share ≤ MAXTICKET :=
  ⟨Int.le_ediv_of_mul_le positive (by omega), Int.ediv_le_self _ (by decide)⟩

/-- The strides and shares stay as they are. -/
def SameBooks (k t : Kernel) : Prop :=
  ∀ j, (t.strides j).stride = (k.strides j).stride ∧ (t.strides j).share = (k.strides j).share

theorem SameBooks.of_eq (same : t.strides = k.strides) : SameBooks k t := by
  intro j
  rw [same]
  exact ⟨rfl, rfl⟩

theorem paid_books (k : Kernel) (p : Nat) : SameBooks k (paid k p) := by
  intro j
  rw [paid_strides]
  split
  · exact ⟨rfl, rfl⟩
  · exact ⟨rfl, rfl⟩

theorem charge_books (k : Kernel) : SameBooks k (charge k) := by
  intro j
  rw [charge_strides]
  split
  · exact ⟨rfl, rfl⟩
  · exact ⟨rfl, rfl⟩

/-- What a step does to the strides and shares: nothing, or a holder gives its share back, or a
share is granted. -/
inductive Books (m : Machine) (t : Kernel) (event : Event) : Prop where
  | same (books : SameBooks m.k t)
  | back (h : Nat) (stride : Int) (holder : (m.k.proc h).isstride = true)
      (divided : divide MAXTICKET
        (int ((m.k.strides 0).share + (m.k.strides (m.k.proc h).mystride).share)) = .ok stride)
      (strides : t.strides = (giveBack m.k (m.k.proc h).mystride stride).strides)
  | granted (p : Nat) (portion : Int) (j : Nat) (isCall : event = .setCpuShare p portion)
      (granted : Granted m.k t p portion j)

theorem turn_books (ready : Ready m.k) (turn : Turn m t event) : Books m t event := by
  cases turn_strides ready turn with
  | same strides => exact .same (.of_eq strides)
  | back h stride holder divided strides => exact .back h stride holder divided strides
  | granted p portion j isCall granted => exact .granted p portion j isCall granted
  | ticked p isTick strides =>
    refine .same fun j => ?_
    rw [strides]
    exact paid_books m.k p j
  | charged p isChoice strides =>
    refine .same fun j => ?_
    rw [strides]
    exact charge_books m.k j

/-- No share is negative, an entry that is not in use has none, and all together are not more than
there is; what pays for a process is an entry of the array. -/
structure Ledger (k : Kernel) : Prop where
  nonneg : ∀ j, 0 ≤ (k.strides j).share
  idle : ∀ j, j ≠ 0 → (k.strides j).stride = 0 → (k.strides j).share = 0
  limit : (k.strides 0).share + activeShares k ≤ 100
  stride : ∀ j, 0 ≤ (k.strides j).stride ∧ (k.strides j).stride ≤ MAXTICKET
  mystride : ∀ p, (k.proc p).mystride < NPROC

theorem Ledger.active_nonneg (ledger : Ledger k) : 0 ≤ activeShares k :=
  Finset.sum_nonneg fun i _ => counted_nonneg (ledger.nonneg (i + 1))

theorem Ledger.counted_eq (ledger : Ledger k) (other : j ≠ 0) :
    counted (k.strides j) = (k.strides j).share := by
  unfold counted
  split
  · rfl
  · rename_i idle
    rw [ledger.idle j other (not_not.mp idle)]

theorem Ledger.share_le (ledger : Ledger k) (inside : j < NPROC) (other : j ≠ 0) :
    (k.strides j).share ≤ activeShares k := by
  obtain ⟨i, rfl⟩ := Nat.exists_eq_succ_of_ne_zero other
  rw [← ledger.counted_eq other]
  refine Finset.single_le_sum (f := fun i => counted (k.strides (i + 1)))
    (fun i _ => counted_nonneg (ledger.nonneg (i + 1))) (Finset.mem_range.mpr (by omega))

theorem activeShares_books (books : SameBooks k t) : activeShares t = activeShares k :=
  activeShares_congr fun i _ => by rw [counted, counted, (books i).1, (books i).2]

theorem Ledger.books (ledger : Ledger k) (books : SameBooks k t)
    (mystride : ∀ p, (t.proc p).mystride < NPROC) : Ledger t := by
  refine ⟨fun j => ?_, fun j other idle => ?_, ?_, fun j => ?_, mystride⟩
  · rw [(books j).2]
    exact ledger.nonneg j
  · rw [(books j).1] at idle
    rw [(books j).2]
    exact ledger.idle j other idle
  · rw [(books 0).2, activeShares_books books]
    exact ledger.limit
  · rw [(books j).1]
    exact ledger.stride j

/-- The two entries after a holder has given its share back. -/
structure GaveBack (k t : Kernel) (j : Nat) : Prop where
  own : (t.strides j).stride = 0 ∧ (t.strides j).share = 0
  first : j ≠ 0 → (t.strides 0).share = (k.strides 0).share + (k.strides j).share ∧
    0 < (t.strides 0).share ∧ (t.strides 0).stride = MAXTICKET / (t.strides 0).share
  others : ∀ i, i ≠ 0 → i ≠ j → t.strides i = k.strides i

theorem Ledger.gaveBack (ledger : Ledger k) (inside : j < NPROC)
    (divided : divide MAXTICKET (int ((k.strides 0).share + (k.strides j).share)) = .ok stride)
    (strides : t.strides = (giveBack k j stride).strides) : GaveBack k t j := by
  refine ⟨?_, fun other => ?_, fun i other differ => ?_⟩
  · rw [strides, giveBack_strides, if_pos rfl]
    exact ⟨rfl, rfl⟩
  · have first := ledger.nonneg 0
    have own := ledger.nonneg j
    have part := ledger.share_le inside other
    have limit := ledger.limit
    rw [int_eq (by omega) (by omega)] at divided
    obtain ⟨positive, exact⟩ := divide_eq (by omega) divided
    rw [strides, giveBack_strides, if_neg other.symm, if_pos rfl]
    dsimp only
    rw [int_eq (by omega) (by omega)]
    exact ⟨rfl, positive, exact⟩
  · rw [strides, giveBack_strides, if_neg differ, if_neg other]

theorem GaveBack.active (gave : GaveBack k t j) (ledger : Ledger k) (inside : j < NPROC)
    (other : j ≠ 0) :
    activeShares t = activeShares k - (k.strides j).share := by
  rw [activeShares_set inside other gave.others, ledger.counted_eq other, counted, gave.own.1]
  simp

/-- The entries after a grant of a percentage. -/
structure Shared (k t : Kernel) (p : Nat) (portion : Int) (j : Nat) : Prop where
  inside : j < NPROC
  other : j ≠ 0
  idle : (k.strides j).stride = 0
  own : (t.strides j).share = portion ∧ (t.strides j).stride = MAXTICKET / portion ∧
    (t.strides j).proc = some p
  fits : portion + activeShares k ≤ 80
  first : (t.strides 0).share = 100 - (portion + activeShares k) ∧
    (t.strides 0).stride = MAXTICKET / (t.strides 0).share
  others : ∀ i, i ≠ 0 → i ≠ j → t.strides i = k.strides i

theorem Ledger.shared (ledger : Ledger k) (lower : 1 ≤ portion) (upper : portion ≤ 100)
    (granted : Granted k t p portion j) : Shared k t p portion j := by
  have least := ledger.active_nonneg
  have first := ledger.nonneg 0
  have limit := ledger.limit
  have total := total_eq ledger.nonneg (by omega : 0 ≤ portion) (by omega)
  have fits := granted.fits
  obtain ⟨inside, stride₀, stride, divided₀, divided, zero, idle, strides⟩ := granted.strides
  rw [total] at fits divided₀
  rw [int_eq (by omega) (by omega)] at divided₀
  obtain ⟨positive₀, exact₀⟩ := divide_eq (by omega) divided₀
  obtain ⟨positive, exact⟩ := divide_eq (by omega) divided
  have ticket : (MAXTICKET : Int) = 100000 := rfl
  have other : j ≠ 0 := by
    intro isZero
    have bounds := stride_bounds positive₀ (by omega)
    rw [← exact₀, zero isZero] at bounds
    omega
  refine ⟨inside, other, idle other, ?_, by omega, ?_, ?_⟩
  · rw [strides, if_pos rfl]
    exact ⟨rfl, exact, rfl⟩
  · rw [strides, if_neg other.symm, if_pos rfl]
    dsimp only
    rw [total, int_eq (by omega) (by omega)]
    exact ⟨rfl, exact₀⟩
  · intro i isOther differ
    rw [strides, if_neg differ, if_neg isOther]

theorem Shared.active (shared : Shared k t p portion j) (lower : 1 ≤ portion)
    (upper : portion ≤ 100) :
    activeShares t = activeShares k + portion := by
  have ticket : (MAXTICKET : Int) = 100000 := rfl
  have bounds := stride_bounds (by omega : 0 < portion) (by omega)
  rw [activeShares_set shared.inside shared.other shared.others, counted, counted, shared.idle,
    shared.own.1, shared.own.2.1, if_neg (not_not.mpr rfl), if_pos (by omega)]
  omega

/-- Only percentages are asked for. -/
def Percent : Event → Prop
  | .setCpuShare _ portion => 1 ≤ portion ∧ portion ≤ 100
  | _ => True

theorem ledger_turn (ready : Ready m.k) (ledger : Ledger m.k) (percent : Percent event)
    (turn : Turn m t event) : Ledger t := by
  have mystride : ∀ p, (t.proc p).mystride < NPROC := by
    intro p
    have entry : ∀ {isstride : Bool} {j level : Nat}, rank (t.proc p) = (isstride, j, level) →
        (t.proc p).mystride = j := fun same => congrArg (·.2.1) same
    cases turn_rank ready turn p with
    | copied q same =>
      rw [entry same]
      exact ledger.mystride q
    | queued level low same =>
      rw [entry same]
      decide
    | full call isCall isFork noRoom same =>
      rw [entry same]
      decide
    | granted portion j isCall granted =>
      obtain ⟨_, own⟩ := granted.own
      rw [own]
      exact granted.strides.1
  have ticket : (MAXTICKET : Int) = 100000 := rfl
  have limit := ledger.limit
  have least := ledger.active_nonneg
  cases turn_books ready turn with
  | same books => exact ledger.books books mystride
  | back h stride holder divided strides =>
    have gave := ledger.gaveBack (ledger.mystride h) divided strides
    generalize isEntry : (m.k.proc h).mystride = j at gave
    have inside : j < NPROC := isEntry ▸ ledger.mystride h
    refine ⟨fun i => ?_, fun i other idle => ?_, ?_, fun i => ?_, mystride⟩
    · by_cases own : i = j
      · rw [own, gave.own.2]
      by_cases zero : i = 0
      · have positive := (gave.first (by omega)).2.1
        rw [zero]
        omega
      · rw [gave.others i zero own]
        exact ledger.nonneg i
    · by_cases own : i = j
      · rw [own, gave.own.2]
      · rw [gave.others i other own] at idle ⊢
        exact ledger.idle i other idle
    · by_cases zero : j = 0
      · rw [zero] at gave
        have active : activeShares t = activeShares m.k :=
          activeShares_congr fun i other => by rw [gave.others i other other]
        have first := ledger.nonneg 0
        rw [gave.own.2, active]
        omega
      · rw [(gave.first zero).1, gave.active ledger inside zero]
        omega
    · by_cases own : i = j
      · rw [own, gave.own.1]
        omega
      by_cases zero : i = 0
      · obtain ⟨_, positive, exact⟩ := gave.first (by omega)
        rw [zero, exact]
        exact ⟨Int.ediv_nonneg (by omega) (by omega), Int.ediv_le_self _ (by omega)⟩
      · rw [gave.others i zero own]
        exact ledger.stride i
  | granted p portion j isCall granted =>
    rw [isCall] at percent
    have shared := ledger.shared percent.1 percent.2 granted
    have active := shared.active percent.1 percent.2
    have fits := shared.fits
    refine ⟨fun i => ?_, fun i other idle => ?_, ?_, fun i => ?_, mystride⟩
    · by_cases own : i = j
      · rw [own, shared.own.1]
        exact Int.le_trans (by decide) percent.1
      · by_cases zero : i = 0
        · rw [zero, shared.first.1]
          omega
        · rw [shared.others i zero own]
          exact ledger.nonneg i
    · by_cases own : i = j
      · have positive : 0 < portion := Int.lt_of_lt_of_le (by decide) percent.1
        have bounds := stride_bounds positive (by omega)
        rw [own, shared.own.2.1] at idle
        omega
      · rw [shared.others i other own] at idle ⊢
        exact ledger.idle i other idle
    · rw [shared.first.1, active]
      omega
    · by_cases own : i = j
      · rw [own, shared.own.2.1]
        have lower := percent.1
        exact ⟨Int.ediv_nonneg (by omega) (by omega), Int.ediv_le_self _ (by omega)⟩
      · by_cases zero : i = 0
        · rw [zero, shared.first.2, shared.first.1]
          exact ⟨Int.ediv_nonneg (by omega) (by omega), Int.ediv_le_self _ (by omega)⟩
        · rw [shared.others i zero own]
          exact ledger.stride i

/-- A process without threads that has no share asks for a percentage; if it fits, an entry is
free. -/
structure Asks (k : Kernel) (p : Nat) (portion : Int) : Prop where
  lower : 1 ≤ portion
  upper : portion ≤ 100
  master : (k.proc p).master = none
  isthread : (k.proc p).isthread = false
  isstride : (k.proc p).isstride = false
  free : activeShares k + portion ≤ 80 → ∃ j < NPROC, j ≠ 0 ∧ (k.strides j).stride = 0

instance (k : Kernel) (p : Nat) (portion : Int) : Decidable (Asks k p portion) :=
  decidable_of_iff (1 ≤ portion ∧ portion ≤ 100 ∧ (k.proc p).master = none ∧
      (k.proc p).isthread = false ∧ (k.proc p).isstride = false ∧
      (activeShares k + portion ≤ 80 → ∃ j < NPROC, j ≠ 0 ∧ (k.strides j).stride = 0))
    ⟨fun ⟨lower, upper, master, isthread, isstride, free⟩ =>
      ⟨lower, upper, master, isthread, isstride, free⟩,
      fun asks => ⟨asks.lower, asks.upper, asks.master, asks.isthread, asks.isstride, asks.free⟩⟩

/-- Shares are asked for as above; and a new process finds a place in queue 0. -/
def Shareable (m : Machine) : Event → Prop
  | .setCpuShare p portion => Asks m.k p portion
  | .call event => forks event = true → Room m.k
  | _ => True

instance (m : Machine) (event : Event) : Decidable (Shareable m event) := by
  rcases event <;> dsimp only [Shareable] <;> infer_instance

theorem Shareable.percent (allowed : Shareable m event) : Percent event := by
  cases event with
  | setCpuShare p portion => exact ⟨allowed.lower, allowed.upper⟩
  | call | tick | schedule => trivial

/-- The invariant of runs: a holder has an entry, the others are in a queue, and strides belong to
shares. -/
structure Orderly (k : Kernel) : Prop where
  ledger : Ledger k
  holder : ∀ p, (k.proc p).isstride = true → (k.proc p).mystride ≠ 0
  queued : ∀ p, (k.proc p).isstride = false → (k.proc p).level < 3
  exact : ∀ j, j ≠ 0 → (k.strides j).stride ≠ 0 →
    (k.strides j).stride = MAXTICKET / (k.strides j).share

/-- The accounts after the first admission. -/
structure Balanced (k : Kernel) : Prop where
  sum : (k.strides 0).share + activeShares k = 100
  most : activeShares k ≤ 80
  exact : ∀ j, (k.strides j).stride ≠ 0 → (k.strides j).stride = MAXTICKET / (k.strides j).share

theorem orderly_turn (ready : Ready m.k) (orderly : Orderly m.k) (allowed : Shareable m event)
    (turn : Turn m t event) : Orderly t := by
  have ledger := orderly.ledger
  have shared : ∀ {p j : Nat} {portion : Int}, event = .setCpuShare p portion →
      Granted m.k t p portion j → Shared m.k t p portion j := by
    intro p j portion isCall granted
    rw [isCall] at allowed
    exact ledger.shared allowed.lower allowed.upper granted
  have ranks : ∀ p, ((t.proc p).isstride = true → (t.proc p).mystride ≠ 0) ∧
      ((t.proc p).isstride = false → (t.proc p).level < 3) := by
    intro p
    cases turn_rank ready turn p with
    | copied q same =>
      simp only [rank, Prod.mk.injEq] at same
      rw [same.1, same.2.1, same.2.2]
      exact ⟨orderly.holder q, orderly.queued q⟩
    | queued level low same =>
      simp only [rank, Prod.mk.injEq] at same
      rw [same.1, same.2.2]
      exact ⟨fun held => (nomatch held), fun _ => low⟩
    | full call isCall isFork noRoom same =>
      rw [isCall] at allowed
      exact absurd (allowed isFork) noRoom
    | granted portion j isCall granted =>
      obtain ⟨_, own⟩ := granted.own
      rw [own]
      exact ⟨fun _ => (shared isCall granted).other, fun queued => (nomatch queued)⟩
  refine ⟨ledger_turn ready ledger allowed.percent turn, fun p => (ranks p).1, fun p => (ranks p).2,
      ?_⟩
  intro i other active
  cases turn_books ready turn with
  | same books =>
    rw [(books i).1] at active ⊢
    rw [(books i).2]
    exact orderly.exact i other active
  | back h stride holder divided strides =>
    have gave := ledger.gaveBack (ledger.mystride h) divided strides
    by_cases own : i = (m.k.proc h).mystride
    · rw [own, gave.own.1] at active
      exact absurd rfl active
    · rw [gave.others i other own] at active ⊢
      exact orderly.exact i other active
  | granted p portion j isCall granted =>
    have given := shared isCall granted
    by_cases own : i = j
    · rw [own, given.own.1, given.own.2.1]
    · rw [given.others i other own] at active ⊢
      exact orderly.exact i other active

/-- Entry 0 with the others. -/
theorem Orderly.balanced (orderly : Orderly k) (sum : (k.strides 0).share + activeShares k = 100)
    (most : activeShares k ≤ 80) (first : (k.strides 0).stride = MAXTICKET / (k.strides 0).share) :
    Balanced k := by
  refine ⟨sum, most, fun j active => ?_⟩
  by_cases zero : j = 0
  · rw [zero]
    exact first
  · exact orderly.exact j zero active

theorem Shared.balanced (shared : Shared k t p portion j) (lower : 1 ≤ portion)
    (upper : portion ≤ 100) (orderly : Orderly t) : Balanced t := by
  have active := shared.active lower upper
  have fits := shared.fits
  refine orderly.balanced ?_ (by omega) shared.first.2
  rw [shared.first.1, active]
  omega

theorem left_strides (other : j ≠ 0) : (left k share stride).strides j = k.strides j :=
  update_of_ne other _ _

theorem enter_ends (nonzero : portion ≠ 0) (master : (k.proc p).master = none)
    (isthread : (k.proc p).isthread = false) (low : (k.proc p).level < 3)
    (free : ∃ j < NPROC, (k.strides j).stride = 0) : ∃ t, enter k p portion = .ok (t, true) := by
  unfold enter
  split
  · rename_i full
    obtain ⟨j, inside, idle⟩ := free
    have used := Scan.first_eq_none full j (Nat.zero_le j) (by omega)
    rw [beq_eq_false_iff_ne] at used
    exact absurd idle used
  rename_i j found
  have divided : divide MAXTICKET portion = .ok (int ((MAXTICKET : Int).tdiv portion)) :=
    if_neg nonzero
  generalize named :
    (k.setStride j ⟨int ((MAXTICKET : Int).tdiv portion), minPass k, portion, some p⟩)
    = u
  have proc : u.proc p = k.proc p := named ▸ rfl
  have ticked : setthreadtick (u.setProc p { u.proc p with mystride := j, isstride := true }) p =
      .ok ((u.setProc p { u.proc p with mystride := j, isstride := true }).setProc p
        { k.proc p with mystride := j, isstride := true, fqtick := 0 }) := by
    unfold setthreadtick
    simp only [setProc_proc, update_self, proc, master, getD_none, isthread]
    rfl
  obtain ⟨v, popped, popping, _⟩ := pop_ends (p := p)
    (k := (u.setProc p { u.proc p with mystride := j, isstride := true }).setProc p
      { k.proc p with mystride := j, isstride := true, fqtick := 0 })
    (by rw [setProc_self]; exact low)
  refine ⟨v.setProc p { v.proc p with level := 3 }, bind_eq_ok.mpr ⟨_, divided, ?_⟩⟩
  rw [named]
  exact bind_eq_ok.mpr ⟨_, ticked, bind_eq_ok.mpr ⟨_, popping, rfl⟩⟩

theorem set_cpu_share_ends (orderly : Orderly k) (asks : Asks k p portion) :
    ∃ t done, set_cpu_share k p portion = .ok (t, done) ∧
      (done = false ↔ activeShares k + portion > 80) ∧ (done = false → t = k) := by
  have lower := asks.lower
  have upper := asks.upper
  have least := orderly.ledger.active_nonneg
  have first := orderly.ledger.nonneg 0
  have limit := orderly.ledger.limit
  have sum := total_eq orderly.ledger.nonneg (by omega : 0 ≤ portion) (by omega)
  rw [set_cpu_share_split, sum]
  by_cases high : portion + activeShares k > 80
  · rw [if_pos high]
    exact ⟨k, false, rfl, by simp; omega, fun _ => rfl⟩
  rw [if_neg high, int_eq (by omega) (by omega)]
  have nonzero : 100 - (portion + activeShares k) ≠ 0 := by omega
  have divided : divide MAXTICKET (100 - (portion + activeShares k)) = .ok _ := if_neg nonzero
  obtain ⟨j, inside, other, idle⟩ := asks.free (by omega)
  generalize int ((MAXTICKET : Int).tdiv (100 - (portion + activeShares k))) = stride at divided
  obtain ⟨t, entered⟩ := enter_ends (k := left k (100 - (portion + activeShares k)) stride)
    (by omega : portion ≠ 0) asks.master asks.isthread (orderly.queued p asks.isstride)
    ⟨j, inside, by rw [left_strides other]; exact idle⟩
  exact ⟨t, true, bind_eq_ok.mpr ⟨_, divided, entered⟩, by simp; omega, fun no => (nomatch no)⟩

theorem orderly_boot (fresh : Seats.Fresh k) : Orderly k := by
  obtain ⟨p, first⟩ := fresh.first
  have stride : ∀ j, (k.strides j).stride = 0 := by
    intro j
    by_cases zero : j = 0
    · rw [zero, first]
    · rw [fresh.others j zero]
  have active : activeShares k = 0 := Finset.sum_eq_zero fun i _ => by
    rw [counted, stride, if_neg (not_not.mpr rfl)]
  refine ⟨⟨fun j => ?_, fun j other _ => ?_, ?_, fun j => ?_, fun p => ?_⟩, ?_, ?_, ?_⟩
  · by_cases zero : j = 0
    · rw [zero, first]
      exact (by decide : (0 : Int) ≤ 20)
    · rw [fresh.others j zero]
  · rw [fresh.others j other]
  · rw [active, first]
    exact (by decide : (20 : Int) + 0 ≤ 100)
  · rw [stride]
    decide
  · rw [show (k.proc p).mystride = 0 from congrArg (·.2.2.1) (fresh.seat p)]
    decide
  · intro p held
    cases (congrArg (·.2.1) (fresh.seat p) : (k.proc p).isstride = false).symm.trans held
  · intro p _
    rw [show (k.proc p).level = 0 from congrArg (·.2.2.2.1) (fresh.seat p)]
    decide
  · intro j _ active
    exact absurd (stride j) active

/-- init's child takes 80 percent and exits; then init takes 50. -/
def shareReturned : List Event :=
  [.schedule 0, .call (.fork 0), .call (.yield 0), .schedule 1, .setCpuShare 1 80, .call (.exit 1),
    .schedule 0, .call (.wait 0), .setCpuShare 0 50]

end Xv6.Process.Sched
