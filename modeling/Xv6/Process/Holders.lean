import Xv6.Process.Shares

/- Who the entries of `stride_arr` belong to. -/
namespace Xv6.Process.Sched

open Outcome Calls Dispatch Seats Function

variable {k t u : Kernel} {p h j : Nat} {m : Machine} {event : Event}

/-- Process `h` is alive, is no thread, and is paid for by entry `j`. -/
structure Holds (k : Kernel) (h j : Nat) : Prop where
  live : Live (k.proc h).state
  master : (k.proc h).master = none
  rank : rank (k.proc h) = (true, j, 3)

/-- Each entry in use has its holder. -/
def Owned (k : Kernel) : Prop :=
  ∀ j, j ≠ 0 → (k.strides j).stride ≠ 0 → ∃ h, (k.strides j).proc = some h ∧ Holds k h j

/-- Who has no share is in a level of the queues. -/
def Leveled (k : Kernel) : Prop := ∀ p, (k.proc p).isstride = false → (k.proc p).level < 3

theorem Holds.isstride (holds : Holds k h j) : (k.proc h).isstride = true :=
    congrArg Prod.fst holds.rank

theorem Holds.mystride (holds : Holds k h j) : (k.proc h).mystride = j :=
    congrArg (·.2.1) holds.rank

theorem Holds.level (holds : Holds k h j) : (k.proc h).level = 3 := congrArg (·.2.2) holds.rank

theorem Holds.quiet (holds : Holds k h j) (quiet : Seats.Quiet k t) : Holds t h j where
  live := quiet.live h holds.master holds.live
  master := (seat_master (quiet.seat h)).trans holds.master
  rank := (rank_of_seat (quiet.seat h)).trans holds.rank

theorem Holds.same (holds : Holds k h j) (state : (t.proc h).state = (k.proc h).state)
    (master : (t.proc h).master = (k.proc h).master)
    (same : Sched.rank (t.proc h) = Sched.rank (k.proc h)) : Holds t h j :=
  ⟨by rw [state]; exact holds.live, master.trans holds.master, same.trans holds.rank⟩

/-- A running process without threads that has no share asks for one; if it fits, an entry is
free. -/
structure Newcomer (k : Kernel) (p : Nat) (portion : Int) : Prop where
  state : (k.proc p).state = .running
  master : (k.proc p).master = none
  isthread : (k.proc p).isthread = false
  isstride : (k.proc p).isstride = false
  free : total k portion ≤ 80 → ∃ i < NPROC, i ≠ 0 ∧ (k.strides i).stride = 0

instance (k : Kernel) (p : Nat) (portion : Int) : Decidable (Newcomer k p portion) :=
  decidable_of_iff ((k.proc p).state = .running ∧ (k.proc p).master = none ∧
      (k.proc p).isthread = false ∧ (k.proc p).isstride = false ∧
      (total k portion ≤ 80 → ∃ i < NPROC, i ≠ 0 ∧ (k.strides i).stride = 0))
    ⟨fun ⟨state, master, isthread, isstride, free⟩ => ⟨state, master, isthread, isstride, free⟩,
      fun new => ⟨new.state, new.master, new.isthread, new.isstride, new.free⟩⟩

/-- Only such processes ask. -/
def Sharing (m : Machine) : Event → Prop
  | .setCpuShare p portion => Newcomer m.k p portion
  | _ => True

instance (m : Machine) (event : Event) : Decidable (Sharing m event) := by
  rcases event <;> dsimp only [Sharing] <;> infer_instance

/-- A holder keeps its entry until it exits, and then the entry is free. -/
theorem holds_turn (ready : Ready m.k) (holds : Holds m.k h j) (sharing : Sharing m event)
    (turn : Turn m t event) : Holds t h j ∨ (t.strides j).stride = 0 := by
  cases turn with
  | call event effects =>
    generalize forks event = flag at effects
    cases effects with
    | quiet _ given => exact .inl (holds.quiet given)
    | fork u v np before seated after =>
      have holds := holds.quiet before
      have other : h ≠ np := fun same => seated.vacant (same ▸ holds.live)
      have same := seated.others h other
      exact .inl (Holds.quiet (holds.same (by rw [same]) (by rw [same]) (by rw [same])) after)
    | thread _ u v np master before recruited after =>
      have holds := holds.quiet before
      have other : h ≠ np := fun same => recruited.vacant (same ▸ holds.live)
      have same := recruited.seat h other
      exact .inl
        (Holds.quiet (holds.same (recruited.state h) (seat_master same) (rank_of_seat same)) after)
    | exit _ u v e before ran after =>
      have holds := holds.quiet before
      by_cases own : h = e
      · rw [own] at holds
        rcases unschedule_eq ran with ⟨_, stride, _, rfl⟩ | ⟨queued, _⟩
        · right
          rw [after, setProc_strides, giveBack_strides, holds.mystride, if_pos rfl]
        · cases queued.symm.trans holds.isstride
      · left
        obtain ⟨_, same⟩ := exit_proc ran h
        have final : t.proc h = v.proc h := by rw [after, setProc_of_ne own]
        rw [← final] at same
        exact holds.same (by rw [same]) (by rw [same]) (by rw [same]; rfl)
  | rejected p portion high same =>
    rw [same]
    exact .inl holds
  | granted p portion i onCpu granted =>
    left
    have other : h ≠ p := by
      intro same
      cases (same ▸ holds.isstride).symm.trans sharing.isstride
    obtain ⟨_, same⟩ := granted.others h other
    exact holds.same (by rw [same]) (by rw [same]) (by rw [same]; rfl)
  | tick p u running alone shifts after =>
    left
    refine Holds.quiet ?_ after
    rcases shifts.proc h with ⟨_, same⟩ | ⟨low, _⟩
    · exact holds.same (by rw [same]; rfl) (by rw [same]; rfl) (by rw [same]; rfl)
    · have level : ((paid m.k p).proc h).level = 3 := holds.level
      omega
  | schedule p w u inside runnable result after =>
    left
    have looked : Holds u h j := by
      rcases (choose_eq ready runnable result).2 with ⟨_, _, rfl, _⟩ | ⟨_, _, rfl, _⟩
      · exact holds.same rfl rfl rfl
      · exact holds.same rfl rfl rfl
    rw [after]
    refine ⟨?_, ?_, ?_⟩
    · rw [setProc_proc]
      by_cases chosen : h = w
      · rw [chosen, update_self]
        exact .inr (.inl rfl)
      · rw [update_of_ne chosen]
        exact looked.live
    · exact (setProc_same (·.master) (by rfl) h).trans looked.master
    · exact (setProc_same Sched.rank (by rfl) h).trans looked.rank

theorem entry_turn (ready : Ready m.k) (turn : Turn m t event) (other : j ≠ 0)
    (active : (t.strides j).stride ≠ 0) :
    (m.k.strides j).stride ≠ 0 ∧ (t.strides j).proc = (m.k.strides j).proc ∨
    ∃ p portion, event = .setCpuShare p portion ∧ Granted m.k t p portion j ∧
      (t.strides j).proc = some p := by
  cases turn_strides ready turn with
  | same strides =>
    rw [strides] at active ⊢
    exact .inl ⟨active, rfl⟩
  | back h stride holder divided strides =>
    rw [strides, giveBack_strides] at active ⊢
    split at active
    · exact absurd rfl active
    · rename_i differ
      rw [if_neg differ, if_neg other]
      exact .inl ⟨active, rfl⟩
  | granted p portion i isCall granted =>
    obtain ⟨_, stride₀, stride, _, _, _, _, strides⟩ := granted.strides
    by_cases own : j = i
    · subst own
      exact .inr ⟨p, portion, isCall, granted, by rw [strides, if_pos rfl]⟩
    · rw [strides, if_neg own, if_neg other] at active ⊢
      exact .inl ⟨active, rfl⟩
  | ticked p isTick strides =>
    rw [strides, paid_strides] at active ⊢
    split at active
    · exact .inl ⟨active, by split <;> rfl⟩
    · exact .inl ⟨active, by split <;> rfl⟩
  | charged p isChoice strides =>
    rw [strides, charge_strides, if_neg other] at active ⊢
    exact .inl ⟨active, rfl⟩

theorem owned_turn (ready : Ready m.k) (owned : Owned m.k) (sharing : Sharing m event)
    (turn : Turn m t event) :
    Owned t := by
  intro j other active
  rcases entry_turn ready turn other active with ⟨before, same⟩ |
    ⟨p, portion, isCall, granted, entry⟩
  · obtain ⟨h, held, holds⟩ := owned j other before
    rcases holds_turn ready holds sharing turn with kept | freed
    · exact ⟨h, same.trans held, kept⟩
    · exact absurd freed active
  rw [isCall] at sharing
  obtain ⟨fqtick, own⟩ := granted.own
  refine ⟨p, entry, ?_, ?_, ?_⟩
  · rw [own]
    exact .inr (.inl sharing.state)
  · rw [own]
    exact sharing.master
  · rw [own]
    rfl

theorem leveled_turn (ready : Ready m.k) (leveled : Leveled m.k) (turn : Turn m t event) :
    Leveled t := by
  intro p
  cases turn_rank ready turn p with
  | copied q same =>
    simp only [rank, Prod.mk.injEq] at same
    rw [same.1, same.2.2]
    exact leveled q
  | queued level low same =>
    simp only [rank, Prod.mk.injEq] at same
    rw [same.2.2]
    exact fun _ => low
  | full call isCall isFork noRoom same =>
    simp only [rank, Prod.mk.injEq] at same
    rw [same.1, same.2.2]
    exact leveled p
  | granted portion j isCall granted =>
    obtain ⟨_, own⟩ := granted.own
    rw [own]
    intro queued
    cases queued

/-- A newcomer's call stays in the arrays: it is rejected or accepted, or it divides by zero. -/
theorem Newcomer.inside {portion : Int} (leveled : Leveled k) (new : Newcomer k p portion) :
    set_cpu_share k p portion ≠ .error .undefined := by
  rw [set_cpu_share_split]
  split
  · exact fun wrong => (nomatch wrong)
  rename_i fits
  unfold divide
  split
  · exact fun wrong => (nomatch wrong)
  obtain ⟨i, inside, other, idle⟩ := new.free (by omega)
  show enter (left k (int (100 - total k portion)) _) p portion ≠ _
  generalize int (100 - total k portion) = share
  generalize int (Int.tdiv _ share) = stride
  by_cases zero : portion = 0
  · unfold enter divide
    rw [if_pos zero]
    split
    · rename_i full
      have used := Scan.first_eq_none full i (Nat.zero_le i) (by omega)
      rw [left_strides other, idle] at used
      cases used
    · exact fun wrong => (nomatch wrong)
  · obtain ⟨t, entered⟩ := enter_ends (k := left k share stride) zero new.master new.isthread
      (leveled p new.isstride) ⟨i, inside, by rw [left_strides other]; exact idle⟩
    rw [entered]
    exact fun wrong => (nomatch wrong)

/-- In every state of every run in which only newcomers ask for a share: their calls and the removal
of a process from its queue stay within the arrays, and each entry in use belongs to a live process,
which has no other one. -/
theorem entries_owned (mem : Vm.Mem) (code : Nat → UInt8) (k : Kernel)
    (booted : userinit (Kernel.boot mem) code = .ok k) (events : List Event)
    (sharing : Run.Steps step Sharing (Machine.start k) events) (m : Machine)
    (run : Run.exec step (Machine.start k) events = some m) :
    (∀ p portion, Newcomer m.k p portion → set_cpu_share m.k p portion ≠ .error .undefined) ∧
    (∀ p, (m.k.proc p).isstride = false → ∃ t found, pop_MLFQ m.k p = .ok (t, found)) ∧
    (∀ j, 1 ≤ j → (m.k.strides j).stride ≠ 0 → ∃ h, (m.k.strides j).proc = some h ∧
      Live (m.k.proc h).state ∧ (m.k.proc h).master = none ∧ (m.k.proc h).mystride = j) ∧
    ∀ i j h, 1 ≤ i → 1 ≤ j → (m.k.strides i).stride ≠ 0 → (m.k.strides j).stride ≠ 0 →
      (m.k.strides i).proc = some h → (m.k.strides j).proc = some h → i = j := by
  have fresh := fresh_userinit booted
  obtain ⟨_, owned, leveled⟩ : (Ready m.k ∧ Linked m.k) ∧ Owned m.k ∧ Leveled m.k := by
    refine Run.exec_invariant (fun m => (Ready m.k ∧ Linked m.k) ∧ Owned m.k ∧ Leveled m.k) ?_
      ⟨run_ready booted (Run.exec_nil step _), ?_, fun p =>
        (orderly_boot fresh).queued p⟩ sharing run
    · rintro m event next ⟨⟨ready, linked⟩, owned, leveled⟩ sharing taken
      have turn := step_turn linked taken
      exact ⟨⟨ready_turn ready turn, linked_turn ready linked turn⟩,
        owned_turn ready owned sharing turn, leveled_turn ready leveled turn⟩
    · intro j other active
      change (k.strides j).stride ≠ 0 at active
      rw [fresh.others j other] at active
      exact absurd rfl active
  refine ⟨fun p portion new => new.inside leveled, fun p queued => ?_, fun j positive active => ?_,
      ?_⟩
  · obtain ⟨t, found, popped, _⟩ := pop_ends (leveled p queued)
    exact ⟨t, found, popped⟩
  · obtain ⟨h, held, holds⟩ := owned j (by omega) active
    exact ⟨h, held, holds.live, holds.master, holds.mystride⟩
  intro i j h first second active active' held held'
  obtain ⟨a, same, holds⟩ := owned i (by omega) active
  obtain ⟨b, same', holds'⟩ := owned j (by omega) active'
  cases same.symm.trans held
  cases same'.symm.trans held'
  exact holds.mystride.symm.trans holds'.mystride

theorem entries_owned_small : ∃ k m, userinit (Kernel.boot smallMem) (fun _ => 0) = .ok k ∧
    Run.exec step (Machine.start k) shareReturned = some m ∧ (m.k.strides 1).stride ≠ 0 ∧
    ∃ h, (m.k.strides 1).proc = some h ∧ (m.k.proc h).mystride = 1 := by
  obtain ⟨k, m, booted, ends, facts⟩ := run_small step Machine.start shareReturned (fun k m =>
    Run.Steps step Sharing (Machine.start k) shareReturned ∧
      (m.k.strides 1).stride ≠ 0) (by decide +kernel)
  obtain ⟨h, held, _, _, mystride⟩ :=
    (entries_owned smallMem _ k booted _ facts.1 m ends).2.2.1 1 (by decide) facts.2
  exact ⟨k, m, booted, ends, facts.2, h, held, mystride⟩

/-- init takes a share and asks for another one: `pop_MLFQ` then reads `MLFQ_queues[3]`. -/
theorem second_share_outside : (bootSmall.bind fun k =>
    (Run.exec step (Machine.start k) [.schedule 0, .setCpuShare 0 10]).map fun m =>
      (decide ((m.k.proc 0).level = 3), (set_cpu_share m.k 0 10).map fun _ => ())) =
    some (true, .error .undefined) := by
  decide +kernel

end Xv6.Process.Sched
