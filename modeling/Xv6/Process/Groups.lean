import Xv6.Process.Mlfq
import Xv6.Process.Tables

/- The scheduling of thread groups: ticks charged to a group, and the move of a group to the stride
scheduler. -/
namespace Xv6.Process.Groups

open Function Outcome Mlfq Sched Tables Option List

variable {k t u : Kernel} {m p q : Nat} {portion : Int}

/-- A master with its table of workers. -/
structure Group (k : Kernel) (m : Nat) : Prop where
  master : (k.proc m).master = none
  workers : ∀ i w, (k.proc m).workerthread i = some w →
    w ≠ m ∧ (k.proc w).master = some m ∧ (k.proc w).isthread = true
  alone : (k.proc m).isthread = false → ∀ i, (k.proc m).workerthread i = none

def Worker (k : Kernel) (m p : Nat) : Prop := ∃ i < NTHRE, (k.proc m).workerthread i = some p

/-- The master, or a worker of it that is live. -/
def Member (k : Kernel) (m p : Nat) : Prop := p = m ∨ Worker k m p ∧ Live (k.proc p).state

theorem Group.single (group : Group k m) (alone : (k.proc m).isthread = false) (q : Nat) :
    Member k m q ↔ q = m := by
  constructor
  · rintro (same | ⟨⟨i, _, here⟩, _⟩)
    · exact same
    · rw [group.alone alone i] at here
      cases here
  · exact .inl

theorem Group.only (group : Group k m) (member : Member k m p)
    (alone : (k.proc p).isthread = false) :
    p = m := by
  rcases member with same | ⟨⟨i, _, here⟩, _⟩
  · exact same
  · cases alone.symm.trans (group.workers i p here).2.2

section Ticks

/-- The tick of member `p` was charged to its whole group, and to no other process. A process that
is moved to another queue starts again with no ticks. -/
structure Charged (k : Kernel) (m p : Nat) (t : Kernel) : Prop where
  members : ∀ q, Member k m q → (t.proc q).fqtick = (k.proc q).fqtick + 1 ∨
    (t.proc q).fqtick = 0 ∧ (Spent (k.proc m).level ((k.proc m).fqtick + 1) ∨ Boosts k p)
  others : ∀ q, ¬ Member k m q → (t.proc q).fqtick ≤ (k.proc q).fqtick
  demotes : (k.proc m).isstride = false → Spent (k.proc m).level ((k.proc m).fqtick + 1) →
    ¬ Boosts k p → Held t m ∧ (t.proc m).level = (k.proc m).level + 1

theorem charged_single {yields : Bool} (good : Represented k) (group : Group k m)
    (enrolled : (k.proc m).isstride = false → Held k m) (alone : (k.proc m).isthread = false)
    (ran : tick_add_MLFQ k m = .ok (t, yields)) : Charged k m m t := by
  cases share : (k.proc m).isstride with
  | true =>
    obtain ⟨u, _, same, _, proc⟩ := tick_outside alone fun low => by simp [share] at low
    cases same.symm.trans ran
    refine ⟨fun q member => ?_, fun q other => ?_, fun no => (nomatch share.symm.trans no)⟩
    · rw [(group.single alone q).mp member, proc, update_self]
      exact .inl rfl
    · rw [proc, update_of_ne (fun same => other (.inl same))]
  | false =>
    have held := enrolled share
    obtain ⟨u, same, requeued, own, _⟩ := tick_spec good alone share (good.inside held).2
    cases same.symm.trans ran
    obtain ⟨counts, rest⟩ := tick_counts good held alone share ran
    refine ⟨fun q member => ?_, fun q other => ?_, fun _ spent calm => ?_⟩
    · rw [(group.single alone q).mp member]
      rcases counts with more | zero
      · exact .inl more
      by_cases boosts : Boosts k m
      · exact .inr ⟨zero, .inr boosts⟩
      · by_cases spent : Spent (k.proc m).level ((k.proc m).fqtick + 1)
        · exact .inr ⟨zero, .inl spent⟩
        · rw [own boosts held, update_self, ticked, if_neg spent] at zero
          cases zero
    · have apart : q ≠ m := fun same => other (.inl same)
      rcases rest q apart with same | zero
      · exact Nat.le_of_eq same
      · omega
    · refine ⟨(requeued.held m).mpr held, ?_⟩
      rw [own calm held, update_self, ticked, if_pos spent]
      rfl

/-- A tick is charged to the group exactly if there never was a thread in it. With threads
`increasealltick` goes through a pointer that it never set. -/
theorem group_charged (k : Kernel) (m p : Nat) (good : Represented k) (group : Group k m)
    (member : Member k m p) (enrolled : (k.proc m).isstride = false → Held k m) :
    (∃ t yields, tick_add_MLFQ k p = .ok (t, yields) ∧ Charged k m p t) ↔
      (k.proc p).isthread = false := by
  constructor
  · rintro ⟨t, yields, returned, _⟩
    exact (tick_returned returned).1
  · intro alone
    obtain rfl := group.only member alone
    obtain ⟨t, yields, returned, _⟩ := tick_requeued good alone
    exact ⟨t, yields, returned, charged_single good group enrolled alone returned⟩

theorem group_charged_single : ∃ k, Group k 3 ∧ Held k 3 ∧
    ∃ t yields, tick_add_MLFQ k 3 = .ok (t, yields) ∧ Charged k 3 3 t := by
  obtain ⟨k, _, good, present, own, _⟩ := push_boot (by decide : 0 < 3)
  have group : Group k 3 := by
    refine ⟨by rw [own]; rfl, fun i w here => ?_, fun _ i => by rw [own]; rfl⟩
    rw [own] at here
    cases here
  exact ⟨k, group, present, (group_charged k 3 3 good group (.inl rfl) fun _ => present).mpr
    (by rw [own]; rfl)⟩

/-- The first process with one thread: its tick is not charged to the group. -/
theorem group_uncharged : ∃ m, afterBoot [.dispatch 0, .threadCreate 0 0] = some m ∧
    (m.k.proc 0).workerthread 0 = some 1 ∧ Live (m.k.proc 1).state ∧ Held m.k 0 ∧
    ¬ ∃ t yields, tick_add_MLFQ m.k 0 = .ok (t, yields) ∧ Charged m.k 0 0 t := by
  have run : (afterBoot [.dispatch 0, .threadCreate 0 0]).map (fun m =>
      decide ((m.k.proc 0).workerthread 0 = some 1 ∧ Live (m.k.proc 1).state ∧ Held m.k 0 ∧
        (m.k.proc 0).isthread = true)) = some true := by
    decide +kernel
  obtain ⟨m, ends, facts⟩ := map_eq_some_iff.mp run
  obtain ⟨worker, live, held, threads⟩ := of_decide_eq_true facts
  refine ⟨m, ends, worker, live, held, ?_⟩
  rintro ⟨t, yields, returned, _⟩
  cases (tick_returned returned).1.symm.trans threads

end Ticks

section Shares

theorem clearTicks_slots {list : List (Option Nat)} (ran : clearTicks k list = .ok t) :
    none ∉ list := by
  induction list generalizing k with
  | nil => exact not_mem_nil
  | cons head rest ih =>
    cases head with
    | none => cases ran
    | some p => simpa using ih ran

theorem clearTicks_spec {list : List (Option Nat)} (slots : none ∉ list) :
    ∃ t, clearTicks k list = .ok t ∧ t.queues = k.queues ∧ t.strides = k.strides ∧
      ∀ q, t.proc q = if some q ∈ list then { k.proc q with fqtick := 0 } else k.proc q := by
  induction list generalizing k with
  | nil => exact ⟨k, rfl, rfl, rfl, fun q => by simp⟩
  | cons head rest ih =>
    cases head with
    | none => exact absurd mem_cons_self slots
    | some p =>
      obtain ⟨t, cleared, queues, strides, proc⟩ :=
        ih (k := k.setProc p { k.proc p with fqtick := 0 })
          (fun more => slots (mem_cons_of_mem _ more))
      refine ⟨t, cleared, queues, strides, fun q => ?_⟩
      rw [proc q, setProc_proc]
      by_cases same : q = p
      · rw [same, update_self, if_pos mem_cons_self]
        split
        · rfl
        · rfl
      · rw [update_of_ne same]
        simp [same]

/-- The call passes the checks of `set_cpu_share`: the portions fit and an entry is found. -/
def Admitted (k : Kernel) (portion : Int) (j : Nat) : Prop :=
  total k portion ≤ 80 ∧ ∃ stride₀ stride,
    divide MAXTICKET (int (100 - total k portion)) = .ok stride₀ ∧
    divide MAXTICKET portion = .ok stride ∧
    Scan.first (fun i => ((left k (int (100 - total k portion)) stride₀).strides i).stride == 0)
      NPROC 0 = some j

/-- The whole group has moved to the entry of its master. -/
structure Moved (k : Kernel) (m : Nat) (t : Kernel) : Prop where
  shares : ∀ q, Member k m q → (t.proc q).isstride = true ∧
    (t.proc q).mystride = (t.proc m).mystride ∧
    (t.proc q).fqtick = 0
  owner : (t.strides (t.proc m).mystride).proc = some m
  queues : ¬ Held t m
  others : ∀ q, q ≠ m → ¬ Worker k m q → t.proc q = k.proc q

/-- `setthreadtick` called by a master whose table has no null pointer, or that has no threads. -/
theorem setthreadtick_spec (master : (k.proc m).master = none)
    (slots : (k.proc m).isthread = false ∨ ∀ i < NTHRE, (k.proc m).workerthread i ≠ none) :
    ∃ t, setthreadtick k m = .ok t ∧ t.queues = k.queues ∧ t.strides = k.strides ∧
      t.proc m = { k.proc m with fqtick := 0 } ∧ (∀ q, (t.proc q).level = (k.proc q).level) ∧
      ∀ q, q ≠ m → ¬ Worker k m q → t.proc q = k.proc q := by
  have own :
      (k.setProc m { k.proc m with fqtick := 0 }).proc m = { k.proc m with fqtick := 0 } := by
    rw [setProc_self]
  have others : ∀ q, q ≠ m → (k.setProc m { k.proc m with fqtick := 0 }).proc q = k.proc q := by
    intro q other
    rw [setProc_of_ne other]
  have levels : ∀ q, ((k.setProc m { k.proc m with fqtick := 0 }).proc q).level =
      (k.proc q).level := Update.same Proc.level rfl
  have called : setthreadtick k m = if (k.proc m).isthread
      then clearTicks (k.setProc m { k.proc m with fqtick := 0 })
        ((List.range NTHRE).map (k.proc m).workerthread)
      else .ok (k.setProc m { k.proc m with fqtick := 0 }) := by
    unfold setthreadtick
    rw [master, getD_none]
    dsimp only
    rw [own]
  rw [called]
  by_cases threads : (k.proc m).isthread = true
  · have full : none ∉ (List.range NTHRE).map (k.proc m).workerthread := by
      intro member
      obtain ⟨i, inside, empty⟩ := mem_map.mp member
      rcases slots with no | full
      · cases threads.symm.trans no
      · exact full i (mem_range.mp inside) empty
    obtain ⟨t, cleared, queues, strides, proc⟩ :=
      clearTicks_spec (k := k.setProc m { k.proc m with fqtick := 0 }) full
    refine ⟨t, (if_pos threads).trans cleared, queues, strides, ?_, fun q => ?_,
      fun q other notWorker => ?_⟩
    · rw [proc m, own]
      split
      · rfl
      · rfl
    · rw [proc q, ← levels q]
      split
      · rfl
      · rfl
    · rw [proc q, others q other, if_neg]
      intro listed
      obtain ⟨i, inside, here⟩ := mem_map.mp listed
      exact notWorker ⟨i, mem_range.mp inside, here⟩
  · exact ⟨_, if_neg threads, rfl, rfl, own, levels, fun q other _ => others q other⟩

theorem share_moves {j : Nat} (good : Represented k) (admitted : Admitted k portion j)
    (master : (k.proc m).master = none) (low : (k.proc m).level < 3)
    (slots : (k.proc m).isthread = false ∨ ∀ i < NTHRE, (k.proc m).workerthread i ≠ none) :
    ∃ t, set_cpu_share k m portion = .ok (t, true) ∧ ¬ Held t m ∧ (t.proc m).fqtick = 0 ∧
      ∀ q, q ≠ m → ¬ Worker k m q → t.proc q = k.proc q := by
  obtain ⟨fits, stride₀, stride, first, second, found⟩ := admitted
  generalize entered : ((left k (int (100 - total k portion)) stride₀).setStride j
    ⟨stride, minPass (left k (int (100 - total k portion)) stride₀), portion,
      some m⟩).setProc m { k.proc m with mystride := j, isstride := true } = u
  have queues : u.queues = k.queues := by rw [← entered]; rfl
  have own : u.proc m = { k.proc m with mystride := j, isstride := true } := by
    rw [← entered, setProc_self]
  have others : ∀ q, q ≠ m → u.proc q = k.proc q := by
    intro q other
    rw [← entered, setProc_of_ne other]
    rfl
  obtain ⟨v, ticked, queues', _, own', levels, others'⟩ := setthreadtick_spec (k := u) (m := m)
    (by rw [own]; exact master) (by rw [own]; exact slots)
  have level : ∀ q, (v.proc q).level = (k.proc q).level := by
    intro q
    rw [levels q]
    by_cases here : q = m
    · rw [here, own]
    · rw [others q here]
  have requeued := requeued_of_queues good (queues'.trans queues) fun q _ => level q
  obtain ⟨w, found', popped, _, held, _, _, _, proc⟩ :=
    pop_spec (p := m) requeued.consistent (by rw [level m]; exact low)
  have kept : ∀ q, q ≠ m → w.proc q = v.proc q := by
    intro q other
    rw [proc]
    split
    · exact update_of_ne other _ _
    · rfl
  refine ⟨w.setProc m { w.proc m with level := 3 }, ?_, ?_, ?_, fun q other notWorker => ?_⟩
  · rw [set_cpu_share_split, if_neg (by omega)]
    refine bind_eq_ok.mpr ⟨stride₀, first, ?_⟩
    unfold enter
    rw [found]
    refine bind_eq_ok.mpr ⟨stride, second, ?_⟩
    dsimp only
    refine bind_eq_ok.mpr ⟨v, ?_, bind_eq_ok.mpr ⟨_, popped, rfl⟩⟩
    rw [← ticked, ← entered]
    rfl
  · exact fun stays => ((held m).mp stays).2 rfl
  · rw [setProc_self]
    show (w.proc m).fqtick = 0
    rw [proc]
    split
    · rw [update_self]
    · rw [own']
  · have sameWorkers : Worker u m q → Worker k m q := by
      unfold Worker
      rw [own]
      exact id
    rw [setProc_of_ne other, kept q other,
      others' q other (fun worker => notWorker (sameWorkers worker)), others q other]

/-- A call of a master with threads that goes through has met no null pointer in the table. -/
theorem share_slots (ran : set_cpu_share k m portion = .ok (t, true))
    (master : (k.proc m).master = none) (threads : (k.proc m).isthread = true) : ∀ i < NTHRE,
    (k.proc m).workerthread i ≠ none := by
  rw [set_cpu_share_split] at ran
  split at ran
  · cases ran
  obtain ⟨stride₀, _, ran⟩ := bind_eq_ok.mp ran
  unfold enter at ran
  split at ran
  · cases ran
  obtain ⟨stride, _, ran⟩ := bind_eq_ok.mp ran
  obtain ⟨v, ticked, _⟩ := bind_eq_ok.mp ran
  unfold setthreadtick at ticked
  simp only [setProc_proc, update_self, left, setStride_proc, master, threads,
    getD_none, if_true] at ticked
  intro i inside empty
  exact clearTicks_slots ticked (mem_map.mpr ⟨i, mem_range.mpr inside, empty⟩)

/-- An admitted call moves the whole group exactly if it is made by the master, and there is no live
worker, and no null pointer in the table if there ever was a thread. -/
theorem group_moved (k : Kernel) (m p : Nat) (portion : Int) (j : Nat) (good : Represented k)
    (group : Group k m) (mlfq : ∀ q, Member k m q → (k.proc q).isstride = false)
    (low : (k.proc m).level < 3) (admitted : Admitted k portion j) :
    (∃ t, set_cpu_share k p portion = .ok (t, true) ∧ Moved k m t) ↔ p = m ∧
      ((k.proc m).isthread = false ∨
        ∀ i < NTHRE, ∃ w, (k.proc m).workerthread i = some w ∧ ¬ Live (k.proc w).state) := by
  constructor
  · rintro ⟨t, returned, moved⟩
    rcases set_cpu_share_eq returned with ⟨no, _⟩ | ⟨_, i, granted⟩
    · cases no
    -- only the fields of the caller other than `fqtick` are written
    have untouched : ∀ q, q ≠ p → Member k m q → False := by
      intro q other member
      obtain ⟨_, same⟩ := granted.others q other
      have share := (moved.shares q member).1
      rw [same] at share
      cases (mlfq q member).symm.trans share
    have same : p = m := by
      by_contra other
      exact untouched m (Ne.symm other) (.inl rfl)
    subst same
    refine ⟨rfl, ?_⟩
    cases threads : (k.proc p).isthread with
    | false => exact .inl rfl
    | true =>
      right
      intro i inside
      obtain ⟨w, here⟩ := ne_none_iff_exists'.mp
        (share_slots returned group.master threads i inside)
      exact ⟨w, here, fun live =>
        untouched w (group.workers i w here).1 (.inr ⟨⟨i, inside, here⟩, live⟩)⟩
  · rintro ⟨rfl, slots⟩
    have dead : ∀ q, Member k p q → q = p := by
      rintro q (same | ⟨⟨i, inside, here⟩, live⟩)
      · exact same
      · rcases slots with alone | ended
        · exact (group.single alone q).mp (.inr ⟨⟨i, inside, here⟩, live⟩)
        · obtain ⟨w, there, gone⟩ := ended i inside
          cases there.symm.trans here
          exact absurd live gone
    obtain ⟨t, returned, left, ticks, others⟩ := share_moves good admitted group.master low
      (slots.imp id fun ended i inside => by
        obtain ⟨w, here, _⟩ := ended i inside
        rw [here]
        exact some_ne_none w)
    rcases set_cpu_share_eq returned with ⟨no, _⟩ | ⟨_, i, granted⟩
    · cases no
    obtain ⟨_, own⟩ := granted.own
    obtain ⟨_, _, _, _, _, strides⟩ := granted.entries
    refine ⟨t, returned, fun q member => ?_, ?_, left, others⟩
    · rw [dead q member]
      refine ⟨?_, rfl, ticks⟩
      rw [own]
    · rw [own, strides, update_self]

theorem group_moved_single : ∃ k t, Held k 3 ∧ set_cpu_share k 3 20 = .ok (t, true) ∧
    Moved k 3 t := by
  obtain ⟨k, _, good, held, own, strides⟩ := push_boot (by decide : 0 < 3)
  have empty : ∀ i, (k.proc 3).workerthread i = none := fun i => by rw [own]; rfl
  have group : Group k 3 := by
    refine ⟨by rw [own]; rfl, fun i w here => ?_, fun _ => empty⟩
    cases (empty i).symm.trans here
  have alone : (k.proc 3).isthread = false := by
    rw [own]
    rfl
  have fits : total k 20 = 20 := by
    unfold total
    rw [strides]
    decide +kernel
  have admitted : Admitted k 20 1 := by
    refine ⟨by omega, 1250, 5000, ?_, rfl, ?_⟩
    · rw [fits]
      rfl
    · rw [fits]
      show Scan.first (fun i => (update k.strides 0 _ i).stride == 0) NPROC 0 = some 1
      rw [strides]
      decide +kernel
  obtain ⟨t, returned, moved⟩ := (group_moved k 3 3 20 1 good group
    (fun q member => by rw [(group.single alone q).mp member, own]; rfl) (by rw [own]; decide)
    admitted).mpr ⟨rfl, .inl alone⟩
  exact ⟨k, t, held, returned, moved⟩

/-- The first process with one thread: its call passes the checks, and the group is not moved. -/
theorem group_unmoved : ∃ m, afterBoot [.dispatch 0, .threadCreate 0 0] = some m ∧
    (m.k.proc 0).workerthread 0 = some 1 ∧ Live (m.k.proc 1).state ∧ Admitted m.k 20 1 ∧
    ¬ ∃ t, set_cpu_share m.k 0 20 = .ok (t, true) ∧ Moved m.k 0 t := by
  have run : (afterBoot [.dispatch 0, .threadCreate 0 0]).map (fun m =>
      decide ((m.k.proc 0).workerthread 0 = some 1 ∧ Live (m.k.proc 1).state ∧
        total m.k 20 = 20 ∧ (m.k.proc 0).workerthread 1 = none ∧ (m.k.proc 0).master = none ∧
        (m.k.proc 0).isthread = true ∧
        Scan.first (fun i => ((left m.k 80 1250).strides i).stride == 0) NPROC 0 = some 1)) =
      some true := by
    decide +kernel
  obtain ⟨m, ends, facts⟩ := map_eq_some_iff.mp run
  obtain ⟨worker, live, fits, empty, master, threads, found⟩ := of_decide_eq_true facts
  refine ⟨m, ends, worker, live, ⟨by omega, 1250, 5000, ?_, rfl, ?_⟩, ?_⟩
  · rw [fits]
    rfl
  · rw [fits]
    exact found
  · rintro ⟨t, returned, _⟩
    exact share_slots returned master threads 1 (by decide) empty

end Shares

end Xv6.Process.Groups
