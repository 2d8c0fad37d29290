import Xv6.Process.RoundRobin
import Xv6.Process.Sched

/- What `scheduler` dispatches while no process of the queues is RUNNABLE. -/
namespace Xv6.Process.Dispatch

open Outcome Calls

variable {k t : Kernel} {p w j : Nat}

/-- The entry has a RUNNABLE owner. -/
def Holder (k : Kernel) (j : Nat) : Prop :=
  j ≠ 0 ∧ j < NPROC ∧ (k.strides j).stride ≠ 0 ∧ isRunnable k (k.strides j).proc = true
deriving Decidable

/-- The process owns an entry whose pass is least among those with a RUNNABLE owner. -/
def OwnsLeast (k : Kernel) (w : Nat) : Prop :=
  ∃ j, Holder k j ∧ (k.strides j).proc = some w ∧ ∀ i, Holder k i →
    (k.strides j).pass ≤ (k.strides i).pass

/-- Some of them has a smaller pass than entry 0. -/
def Behind (k : Kernel) : Prop := ∃ j < NPROC, Holder k j ∧ (k.strides j).pass < (k.strides 0).pass

instance (k : Kernel) : Decidable (Behind k) := inferInstanceAs (Decidable (∃ j < NPROC, _))

/-- No process of the queues is RUNNABLE. -/
def Drained (k : Kernel) : Prop := ∀ level < 3, ¬ Busy k level

/-- The share holders have no threads. -/
def Threadless (k : Kernel) : Prop :=
  ∀ j w, Holder k j → (k.strides j).proc = some w → (k.proc w).isthread = false

instance (k : Kernel) : Decidable (Drained k) :=
  inferInstanceAs (Decidable (∀ level < 3, ¬ ∃ i < NPROC, isRunnable k _ = true))

instance (k : Kernel) : Decidable (Threadless k) :=
  decidable_of_iff (∀ j < NPROC, Holder k j → ∀ w ∈ (k.strides j).proc, (k.proc w).isthread = false)
    ⟨fun given j w holder owner => given j holder.2.1 holder w owner,
      fun given j _ holder w owner => given j w holder owner⟩

theorem Holder.candidate (holder : Holder k j) : Candidate k j := .inr holder.2

/-- An entry is selected instead of entry 0 only if its pass is smaller. -/
theorem lowest_strict {select : Nat} (result : lowest k = .ok select) :
    select = 0 ∨ (k.strides select).pass < (k.strides 0).pass := by
  refine foldlM_ok (fun _ select => select = 0 ∨ (k.strides select).pass < (k.strides 0).pass) ?_
    (.inl rfl) result
  intro done j rest select next _ before stepped
  split at stepped
  · cases stepped
    exact before
  split at stepped
  · cases stepped
  split at stepped
  · cases stepped
    exact before
  split at stepped
  · rename_i less
    cases stepped
    right
    rcases before with zero | smaller
    · rwa [zero] at less
    · omega
  · cases stepped
    exact before

theorem exec_drained (drained : Drained k) : exec_MLFQ k = .ok (k, none) := by
  rw [exec_MLFQ, execLevels_eq]
  cases chosen : select k [0, 1, 2] with
  | none => rfl
  | some slot =>
    obtain ⟨level, pos, p⟩ := slot
    obtain ⟨before, after, levels, _, inView, _⟩ := select_eq_some chosen
    have member : level ∈ [0, 1, 2] := by
      rw [levels]
      simp
    have low : level < 3 := by
      simp only [List.mem_cons, List.not_mem_nil, or_false] at member
      omega
    exact absurd inView.busy (drained level low)

/-- With a holder behind entry 0 the search ends at a least one of them. -/
theorem lowpass_behind (ready : Ready k) (threadless : Threadless k) (low : Low k)
    (behind : Behind k) :
    ∃ t w, choose_lowpass k = .ok (t, some w) ∧ OwnsLeast k w := by
  obtain ⟨select, result, candidate, least⟩ := lowest_ends ready
  obtain ⟨j, inside, holder, smaller⟩ := behind
  have other : select ≠ 0 := by
    intro zero
    have most := least j holder.candidate
    rw [zero] at most
    omega
  have owner : Holder k select := ⟨other, candidate.resolve_left other⟩
  obtain ⟨i, _, active, small⟩ := low
  have bound : ¬ (k.strides select).pass > 200000000 := by
    have := least i active
    omega
  cases held : (k.strides select).proc with
  | none => exact absurd held (ready.entries select owner.2.2.1)
  | some w =>
    have alone := threadless select w owner held
    refine ⟨k, w, bind_eq_ok.mpr ⟨select, result, ?_⟩, select, owner, held,
      fun i holder => least i holder.candidate⟩
    dsimp only
    rw [if_neg bound, if_neg other, held]
    refine bind_eq_ok.mpr ⟨(k, w), ?_, rfl⟩
    rw [pick, alone]
    rfl

theorem lowpass_ahead (ready : Ready k) (drained : Drained k) (low : Low k) (ahead : ¬ Behind k) :
    choose_lowpass k = .ok (k, none) := by
  obtain ⟨select, result, candidate, least⟩ := lowest_ends ready
  have zero : select = 0 := by
    rcases lowest_strict result with zero | smaller
    · exact zero
    · by_contra other
      have active := candidate.resolve_left other
      exact ahead ⟨select, active.1, ⟨other, active⟩, smaller⟩
  obtain ⟨i, _, active, small⟩ := low
  have bound : ¬ (k.strides select).pass > 200000000 := by
    have := least i active
    omega
  refine bind_eq_ok.mpr ⟨select, result, ?_⟩
  dsimp only
  rw [if_neg bound, if_pos zero, exec_drained drained]

theorem charge_strides (k : Kernel) (other : j ≠ 0) : (charge k).strides j = k.strides j :=
  Function.update_of_ne other _ _

/-- The charge is to entry 0 alone. -/
theorem holder_charge (k : Kernel) (j : Nat) : Holder (charge k) j ↔ Holder k j := by
  unfold Holder
  apply and_congr_right
  intro other
  rw [charge_strides k other]
  rfl

theorem ownsLeast_charge (k : Kernel) (w : Nat) : OwnsLeast (charge k) w ↔ OwnsLeast k w := by
  unfold OwnsLeast
  constructor
  · rintro ⟨j, holder, owner, least⟩
    rw [charge_strides k holder.1] at owner
    refine ⟨j, (holder_charge k j).mp holder, owner, fun i other => ?_⟩
    have le := least i ((holder_charge k i).mpr other)
    rwa [charge_strides k holder.1, charge_strides k other.1] at le
  · rintro ⟨j, holder, owner, least⟩
    refine ⟨j, (holder_charge k j).mpr holder, by rwa [charge_strides k holder.1],
      fun i other => ?_⟩
    rw [charge_strides k holder.1, charge_strides k other.1]
    exact least i ((holder_charge k i).mp other)

theorem Threadless.charge (threadless : Threadless k) : Threadless (charge k) := by
  intro j w holder owner
  rw [charge_strides k holder.1] at owner
  exact threadless j w ((holder_charge k j).mp holder) owner

/-- While the queues are idle a least holder is dispatched exactly if the limit on passes is kept,
and a holder is behind entry 0 before or after the charge, or the process that the scan has met is a
least holder itself. -/
theorem idle_picks_least (k : Kernel) (p : Nat) (ready : Ready k) (drained : Drained k)
    (threadless : Threadless k) :
    (∃ t w, scheduler k p = .ok (t, w) ∧ OwnsLeast k w) ↔
      Low k ∧ (Behind k ∨ Low (charge k) ∧ (Behind (charge k) ∨ OwnsLeast k p)) := by
  have dispatched : (∃ t w, scheduler k p = .ok (t, w) ∧ OwnsLeast k w) ↔
      ∃ t w, choose k p = .ok (t, w) ∧ OwnsLeast k w := by
    constructor
    · rintro ⟨t, w, returned, owns⟩
      obtain ⟨⟨u, v⟩, chosen, ends⟩ := bind_eq_ok.mp returned
      cases ends
      exact ⟨u, w, chosen, owns⟩
    · rintro ⟨t, w, chosen, owns⟩
      exact ⟨_, w, bind_eq_ok.mpr ⟨_, chosen, rfl⟩, owns⟩
  rw [dispatched]
  by_cases low : Low k
  · by_cases behind : Behind k
    · obtain ⟨t, w, result, owns⟩ := lowpass_behind ready threadless low behind
      exact ⟨fun _ => ⟨low, .inl behind⟩, fun _ => ⟨t, w, bind_eq_ok.mpr ⟨_, result, rfl⟩, owns⟩⟩
    have first := lowpass_ahead ready drained low behind
    have second : choose k p = choose_lowpass (charge k) >>= fun r => .ok (r.1, r.2.getD p) := by
      unfold choose
      rw [first]
      rfl
    rw [second]
    by_cases low' : Low (charge k)
    · by_cases behind' : Behind (charge k)
      · obtain ⟨t, w, result, owns⟩ := lowpass_behind ready.charge threadless.charge low' behind'
        exact ⟨fun _ => ⟨low, .inr ⟨low', .inl behind'⟩⟩,
          fun _ => ⟨t, w, bind_eq_ok.mpr ⟨_, result, rfl⟩, (ownsLeast_charge k w).mp owns⟩⟩
      rw [lowpass_ahead ready.charge drained low' behind']
      constructor
      · rintro ⟨t, w, result, owns⟩
        cases result
        exact ⟨low, .inr ⟨low', .inr owns⟩⟩
      · rintro ⟨_, impossible | ⟨_, impossible | owns⟩⟩
        · exact absurd impossible behind
        · exact absurd impossible behind'
        · exact ⟨_, p, rfl, owns⟩
    · rw [choose_lowpass_rebases ready.charge low']
      constructor
      · rintro ⟨t, w, result, _⟩
        cases result
      · rintro ⟨_, impossible | ⟨impossible, _⟩⟩
        · exact absurd impossible behind
        · exact absurd impossible low'
  · constructor
    · rintro ⟨t, w, result, _⟩
      exact absurd (choose_low ready result) low
    · exact fun given => absurd given.1 low

/-- init waits for two children that hold 10 percent each. The first has run for two ticks. -/
def twoHolders : List Sched.Event :=
  [.schedule 0, .call (.fork 0), .call (.fork 0), .call (.wait 0), .schedule 1, .setCpuShare 1 10,
    .tick 1, .tick 1, .call (.yield 1), .schedule 2, .setCpuShare 2 10]

/-- The scan meets the first child, and the second one is dispatched. -/
theorem idle_picks_least_second : ∃ k m, userinit (Kernel.boot smallMem) (fun _ => 0) = .ok k ∧
    Run.exec Sched.step (Calls.Machine.start k) (twoHolders ++ [.call (.yield 2)]) = some m ∧
    Drained m.k ∧ ∃ t w, scheduler m.k 1 = .ok (t, w) ∧ OwnsLeast m.k w := by
  obtain ⟨k, m, booted, ends, drained, threadless, low, low', behind⟩ :=
    run_small Sched.step Calls.Machine.start (twoHolders ++ [.call (.yield 2)]) (fun _ m =>
      Drained m.k ∧ Threadless m.k ∧ Low m.k ∧ Low (charge m.k) ∧
        Behind (charge m.k)) (by decide +kernel)
  exact ⟨k, m, booted, ends, drained,
      (idle_picks_least m.k 1 (Sched.run_ready booted ends).1 drained
    threadless).mpr ⟨low, .inr ⟨low', .inl behind⟩⟩⟩

/-- After one tick of the second child both are ahead of entry 0, also after the charge. The scan
meets the first child and it is dispatched, with the larger pass. -/
theorem idle_picks_met : ∃ k m, userinit (Kernel.boot smallMem) (fun _ => 0) = .ok k ∧
    Run.exec Sched.step (Calls.Machine.start k) (twoHolders ++ [.tick 2, .call (.yield 2)]) =
      some m ∧
    Drained m.k ∧ Threadless m.k ∧ Holder m.k 1 ∧ Holder m.k 2 ∧ (m.k.proc 1).state = .runnable ∧
    (∃ t, scheduler m.k 1 = .ok (t, 1)) ∧ ¬ OwnsLeast m.k 1 := by
  obtain ⟨k, m, booted, ends, drained, threadless, first, second, runnable, taken, larger⟩ :=
    run_small Sched.step Calls.Machine.start (twoHolders ++ [.tick 2, .call (.yield 2)]) (fun _ m =>
      Drained m.k ∧ Threadless m.k ∧ Holder m.k 1 ∧ Holder m.k 2 ∧ (m.k.proc 1).state = .runnable ∧
      (scheduler m.k 1).toOption.map Prod.snd = some 1 ∧ ∀ j < NPROC, Holder m.k j →
        (m.k.strides j).proc = some 1 → (m.k.strides 2).pass < (m.k.strides j).pass)
          (by decide +kernel)
  obtain ⟨⟨t, w⟩, returned, same⟩ := Option.map_eq_some_iff.mp taken
  cases same
  refine ⟨k, m, booted, ends, drained, threadless, first, second, runnable,
    ⟨t, toOption_eq_some.mp returned⟩, ?_⟩
  rintro ⟨j, holder, owner, least⟩
  have more := larger j holder.2.1 holder owner
  have less := least 2 second
  omega

end Xv6.Process.Dispatch
