import Mathlib.Algebra.BigOperators.Group.List.Basic
import Mathlib.Algebra.GroupWithZero.Nat
import Mathlib.Data.List.Dedup
import Xv6.Log.Admission

/- Whether the blocks that admitted operations log fit into the log. `begin_op` reserves against
`LOGSIZE`, `log_write` also checks against `log.size - 1`. -/
namespace Xv6.Log

open Function Bytes List

variable {g : Layout} {s t : Sys} {p b : Nat} {data : Block}

/-- An operation logs at most `MAXOPBLOCKS` different blocks. -/
def Limited (s : Sys) : Event → Prop
  | .logCheck p b _ => (b :: s.wrote p).dedup.length ≤ MAXOPBLOCKS
  | _ => True

/-- `begin_op` lets an operation in only if all reservations leave two blocks of `LOGSIZE`. -/
def Roomy (s : Sys) : Event → Prop
  | .beginOp _ => s.lh.n + (s.outstanding + 1) * MAXOPBLOCKS + 2 ≤ LOGSIZE
  | _ => True

/-- Runs of limited operations, without `sys_sync` and crashes, that are let in so. -/
def Admissible (s : Sys) (event : Event) : Prop := Regular event ∧ Limited s event ∧ Roomy s event

/-- `log_write` does not panic. -/
def Fits (g : Layout) (s : Sys) : Event → Prop
  | .logCheck .. => s.lh.n < LOGSIZE ∧ s.lh.n < g.size - 1
  | _ => True

/-- The blocks that operation `p` may still log. -/
def left (s : Sys) (p : Nat) : Nat := MAXOPBLOCKS - (s.wrote p).dedup.length

def reserved (s : Sys) : Nat := (s.active.map (left s)).sum

/-- The entries are distinct and, outside of a commit, their buffers are dirty. -/
structure Pinned (s : Sys) : Prop where
  distinct : ∀ i < s.lh.n, ∀ j < s.lh.n, s.lh.block i = s.lh.block j → i = j
  dirty : s.pc .endOp = none → ∀ i < s.lh.n, s.DirtyAt (s.lh.block i)

structure RoomInv (s : Sys) : Prop where
  ops : OpInv s
  pinned : Pinned s
  room : s.lh.n + reserved s + 2 ≤ LOGSIZE
  limit : ∀ p b data, s.pending p = some (b, data) → (b :: s.wrote p).dedup.length ≤ MAXOPBLOCKS
  logged : ∀ p ∈ s.active, ∀ b ∈ s.wrote p, ∃ i < s.lh.n, s.lh.block i = b
  fresh : ∀ p, p ∉ s.active → s.wrote p = []

theorem left_le (s : Sys) (p : Nat) : left s p ≤ MAXOPBLOCKS := Nat.sub_le _ _

theorem reserved_le (s : Sys) : reserved s ≤ s.active.length * MAXOPBLOCKS := by
  unfold reserved
  induction s.active with
  | nil => exact Nat.zero_le _
  | cons p rest ih =>
    rw [map_cons, sum_cons, length_cons, Nat.succ_mul]
    have one := left_le s p
    omega

theorem reserved_congr (active : t.active = s.active) (wrote : t.wrote = s.wrote) :
    reserved t = reserved s := by
  unfold reserved left
  rw [active, wrote]

theorem reserved_eq (member : p ∈ s.active) :
    reserved s = left s p + ((s.active.erase p).map (left s)).sum :=
  (sum_map_erase (left s) member).symm

/-- The other operations keep their reservations when `p` logs or ends. -/
theorem others_left (nodup : s.active.Nodup) (wrote : ∀ q, q ≠ p → t.wrote q = s.wrote q) :
    (s.active.erase p).map (left t) = (s.active.erase p).map (left s) := by
  apply map_congr_left
  intro q other
  have different : q ≠ p := by
    intro equal
    rw [equal] at other
    exact nodup.not_mem_erase other
  unfold left
  rw [wrote q different]

/-- A step that logs nothing and starts no operation. -/
structure Shrinks (s t : Sys) : Prop where
  count : t.lh.n ≤ s.lh.n
  block : t.lh.block = s.lh.block
  active : t.active = s.active
  wrote : t.wrote = s.wrote
  pending : t.pending = s.pending

theorem shrinks_of_quiet (quiet : Quiet s t) : Shrinks s t :=
  ⟨Nat.le_of_eq (congrArg LogHeader.n quiet.lh), congrArg LogHeader.block quiet.lh, quiet.active,
    quiet.wrote, quiet.pending⟩

theorem Shrinks.setPc (shrinks : Shrinks s t) (agent : Agent) (pc : Option Pc) :
    Shrinks s (t.setPc agent pc) :=
  ⟨shrinks.count, shrinks.block, shrinks.active, shrinks.wrote, shrinks.pending⟩

theorem shrinks_advance {pc : Pc} (notRead : pc ≠ .readHead) :
    Shrinks s (advance g s .endOp pc) := by
  rcases advance_eq g s .endOp pc with rfl | rfl | rfl | same
  · exact absurd rfl notRead
  · exact ⟨Nat.zero_le _, rfl, rfl, rfl, rfl⟩
  · exact ⟨Nat.le_refl _, rfl, rfl, rfl, rfl⟩
  · rw [same]
    exact (shrinks_of_quiet (quiet_written g s pc)).setPc _ _

/-- Such a step keeps the invariant if no entry of an active operation is lost. -/
theorem RoomInv.shrink (inv : RoomInv s) (shrinks : Shrinks s t) (ops : OpInv t)
    (kept : s.active ≠ [] → t.lh.n = s.lh.n)
    (dirty : t.pc .endOp = none → ∀ i < t.lh.n, t.DirtyAt (t.lh.block i)) : RoomInv t := by
  constructor
  · exact ops
  · constructor
    · intro i first j second same
      rw [shrinks.block] at same
      exact inv.pinned.distinct i (Nat.lt_of_lt_of_le first shrinks.count) j
        (Nat.lt_of_lt_of_le second shrinks.count) same
    · exact dirty
  · rw [reserved_congr shrinks.active shrinks.wrote]
    have room := inv.room
    have count := shrinks.count
    omega
  · rw [shrinks.pending, shrinks.wrote]
    exact inv.limit
  · intro q member b held
    rw [shrinks.active] at member
    rw [shrinks.wrote] at held
    rw [kept (ne_nil_of_mem member), shrinks.block]
    exact inv.logged q member b held
  · rw [shrinks.active, shrinks.wrote]
    exact inv.fresh

theorem roomInv_beginOp (inv : RoomInv s) (roomy : Roomy s (.beginOp p))
    (taken : beginOp s p = some t) : RoomInv t := by
  obtain ⟨_, outside, _, _, same⟩ := beginOp_eq_some taken
  have ops := opInv_beginOp inv.ops taken
  rw [same] at ops ⊢
  refine ⟨ops, ⟨inv.pinned.distinct, inv.pinned.dirty⟩, ?_, inv.limit, ?_, ?_⟩
  · show s.lh.n + (left s p + reserved s) + 2 ≤ LOGSIZE
    have one := left_le s p
    have all := reserved_le s
    rw [← inv.ops.counted] at all
    have given : s.lh.n + (s.outstanding + 1) * MAXOPBLOCKS + 2 ≤ LOGSIZE := roomy
    rw [Nat.succ_mul] at given
    omega
  · intro q member b held
    rcases mem_cons.mp member with new | member
    · dsimp only at held
      rw [new, inv.fresh p outside] at held
      cases held
    · exact inv.logged q member b held
  · intro q notActive
    exact inv.fresh q fun member => notActive (mem_cons_of_mem p member)

theorem roomInv_logCheck (inv : RoomInv s) (limited : Limited s (.logCheck p b data))
    (taken : logCheck g s p b data = some t) : RoomInv t := by
  have ops := opInv_logCheck inv.ops taken
  rw [(logCheck_eq_some taken).2.2.2.2.2] at ops ⊢
  refine ⟨ops, ⟨inv.pinned.distinct, inv.pinned.dirty⟩, inv.room, ?_, inv.logged, inv.fresh⟩
  intro q c content found
  dsimp only at found
  by_cases equal : q = p
  · rw [equal, update_self] at found
    cases found
    rw [equal]
    exact limited
  · rw [update_of_ne equal] at found
    exact inv.limit q c content found

/-- The block takes an entry and a reservation, or neither an entry. -/
theorem room_logAppend (inv : RoomInv s) (held : s.pending p = some (b, data))
    (count : t.lh = recordBlock s.lh b) (active : t.active = s.active)
    (wrote : t.wrote = update s.wrote p (b :: s.wrote p)) : t.lh.n + reserved t + 2 ≤ LOGSIZE := by
  have member := inv.ops.pending p _ held
  have limit := inv.limit p b data held
  have own : left t p = MAXOPBLOCKS - (b :: s.wrote p).dedup.length := by
    unfold left
    rw [wrote, update_self]
  have others := others_left (t := t) inv.ops.nodup (p := p) fun q other => by
    rw [wrote, update_of_ne other]
  have before := reserved_eq (s := s) member
  have after : reserved t = left t p + ((s.active.erase p).map (left t)).sum := by
    rw [reserved_eq (s := t) (active.symm ▸ member), active]
  have room := inv.room
  have mine : left s p = MAXOPBLOCKS - (s.wrote p).dedup.length := rfl
  rw [others] at after
  rcases slotOf_cases s.lh b with ⟨found, _⟩ | ⟨last, absent⟩
  · -- an absorbed block costs at most a reservation
    have grows : (s.wrote p).dedup.length ≤ (b :: s.wrote p).dedup.length := by
      by_cases known : b ∈ s.wrote p
      · rw [dedup_cons_of_mem known]
      · rw [dedup_cons_of_notMem known, length_cons]
        exact Nat.le_succ _
    rw [count, recordBlock_absorbed _ _ found]
    omega
  · have new : b ∉ s.wrote p := by
      intro known
      obtain ⟨i, inside, same⟩ := inv.logged p member b known
      exact absent i inside same
    rw [dedup_cons_of_notMem new, length_cons] at limit own
    rw [count, recordBlock_appended _ _ last]
    show s.lh.n + 1 + reserved t + 2 ≤ LOGSIZE
    omega

theorem roomInv_logAppend (inv : RoomInv s) (taken : logAppend s p = some t) : RoomInv t := by
  have ops := opInv_logAppend inv.ops taken
  obtain ⟨b, data, held, same⟩ := logAppend_eq_some taken
  have member := inv.ops.pending p _ held
  have idle := inv.ops.idle.mp (inv.ops.unlocked member)
  have room := room_logAppend (t := t) inv held (by rw [same]) (by rw [same]) (by rw [same])
  rw [same] at ops room ⊢
  refine ⟨ops, ⟨distinct_recordBlock inv.pinned.distinct, ?_⟩, room, ?_, ?_, ?_⟩
  · intro _ i inside
    show ∃ buf, update s.cache b (some ⟨data, true⟩) _ = some buf ∧ _
    by_cases equal : (recordBlock s.lh b).block i = b
    · refine ⟨⟨data, true⟩, ?_, rfl⟩
      show update s.cache b (some ⟨data, true⟩) ((recordBlock s.lh b).block i) = _
      rw [equal, update_self]
    · rcases (mem_recordBlock s.lh b _).mp ⟨i, inside, rfl⟩ with new | ⟨j, bound, old⟩
      · exact absurd new equal
      · rw [update_of_ne equal, ← old]
        exact inv.pinned.dirty idle j bound
  · intro q c content found
    dsimp only at found ⊢
    by_cases equal : q = p
    · rw [equal, update_self] at found
      cases found
    · rw [update_of_ne equal] at found ⊢
      exact inv.limit q c content found
  · intro q active c known
    dsimp only at active known ⊢
    apply (mem_recordBlock s.lh b c).mpr
    by_cases equal : q = p
    · rw [equal, update_self] at known
      rcases mem_cons.mp known with new | known
      · exact .inl new
      · exact .inr (inv.logged p member c known)
    · rw [update_of_ne equal] at known
      exact .inr (inv.logged q active c known)
  · intro q outside
    dsimp only at outside ⊢
    have different : q ≠ p := by
      intro equal
      rw [equal] at outside
      exact outside member
    rw [update_of_ne different]
    exact inv.fresh q outside

theorem roomInv_ended (inv : RoomInv s) (member : p ∈ s.active) (free : s.pending p = none) :
    RoomInv (ended s p) := by
  have wrote : ∀ q, q ≠ p → (ended s p).wrote q = s.wrote q := by
    intro q other
    show update s.wrote p [] q = s.wrote q
    rw [update_of_ne other]
  refine ⟨opInv_ended inv.ops member free, ⟨inv.pinned.distinct, inv.pinned.dirty⟩, ?_, ?_, ?_, ?_⟩
  · have all : reserved (ended s p) = ((s.active.erase p).map (left s)).sum := by
      show ((s.active.erase p).map (left (ended s p))).sum = _
      rw [others_left inv.ops.nodup wrote]
    have before := reserved_eq member
    have room := inv.room
    show s.lh.n + reserved (ended s p) + 2 ≤ LOGSIZE
    omega
  · intro q c content found
    have different : q ≠ p := by
      intro equal
      rw [equal] at found
      cases free.symm.trans found
    rw [wrote q different]
    exact inv.limit q c content found
  · intro q active c known
    have different : q ≠ p := by
      intro equal
      rw [equal] at active
      exact inv.ops.nodup.not_mem_erase active
    rw [wrote q different] at known
    exact inv.logged q (mem_of_mem_erase active) c known
  · intro q outside
    by_cases equal : q = p
    · show update s.wrote p [] q = []
      rw [equal, update_self]
    · rw [wrote q equal]
      exact inv.fresh q fun active => outside ((mem_erase_of_ne equal).mpr active)

theorem roomInv_endOp (inv : RoomInv s) (taken : endOp g s p = some t) : RoomInv t := by
  have ops := opInv_endOp inv.ops taken
  obtain ⟨member, free, _, commits⟩ := endOp_eq_some taken
  have after := roomInv_ended inv member free
  rcases commits with ⟨_, _, same⟩ | ⟨_, same⟩
  · rw [same] at ops ⊢
    apply after.shrink _ ops
    · exact fun _ => rfl
    · intro idle
      rw [Sys.setPc_pc, update_self] at idle
      cases idle
    · exact ⟨Nat.le_refl _, rfl, rfl, rfl, rfl⟩
  · rw [same]
    exact after

theorem roomInv_advance (inv : RoomInv s) {pc : Pc} (here : s.pc .endOp = some pc) :
    RoomInv (advance g s .endOp pc) := by
  have locked := inv.ops.locked here
  have shrinks := shrinks_advance (s := s) (g := g) (inv.ops.cleared pc here).1
  have after := opInv_advance (g := g) inv.ops here
  apply inv.shrink shrinks after
  · intro some
    exact absurd (inv.ops.alone locked) some
  intro idle i inside
  -- only the last step leaves the commit, and then the log is empty
  have last : pc = .finish := by
    by_contra before
    have unlocked := after.idle.mpr idle
    rw [advance_committing before (inv.ops.cleared pc here).1, locked] at unlocked
    cases unlocked
  subst last
  have empty := (inv.ops.cleared _ here).2 (.inr rfl)
  have none : (advance g s .endOp .finish).lh.n = 0 := empty
  rw [none] at inside
  cases inside

theorem recycle_dirtyAt (taken : recycle s b = some t) {c : Nat} (dirty : s.DirtyAt c) :
    t.DirtyAt c := by
  unfold recycle at taken
  split at taken
  · rename_i data cached
    cases taken
    obtain ⟨buf, found, flag⟩ := dirty
    have different : c ≠ b := by
      intro equal
      rw [equal, cached] at found
      cases found
      cases flag
    refine ⟨buf, ?_, flag⟩
    show update s.cache b none c = some buf
    rw [update_of_ne different]
    exact found
  · cases taken

theorem roomInv_step {event : Event} (inv : RoomInv s) (allowed : Admissible s event)
    (taken : step g s event = some t) : RoomInv t := by
  obtain ⟨regular, limited, roomy⟩ := allowed
  cases event with
  | beginOp p => exact roomInv_beginOp inv roomy taken
  | logCheck p b data => exact roomInv_logCheck inv limited taken
  | logAppend p => exact roomInv_logAppend inv taken
  | endOp p => exact roomInv_endOp inv taken
  | sysSync => exact regular.elim
  | crash => exact regular.elim
  | step agent =>
    obtain ⟨pc, here, same⟩ := Option.map_eq_some_iff.mp taken
    have which := inv.ops.agent here
    subst which
    rw [← same]
    exact roomInv_advance inv here
  | bread b =>
    cases taken
    have quiet := quiet_bread s b
    apply inv.shrink (shrinks_of_quiet quiet) (inv.ops.congr quiet)
    · intro _
      rw [quiet.lh]
    · rw [quiet.pc, quiet.lh]
      intro idle i inside
      rw [Sys.bread_dirtyAt]
      exact inv.pinned.dirty idle i inside
  | recycle b =>
    have quiet := quiet_recycle taken
    apply inv.shrink (shrinks_of_quiet quiet) (inv.ops.congr quiet)
    · intro _
      rw [quiet.lh]
    · rw [quiet.pc, quiet.lh]
      intro idle i inside
      exact recycle_dirtyAt taken (inv.pinned.dirty idle i inside)

theorem roomInv_started (disk : Nat → Block) : RoomInv (started disk) := by
  refine ⟨opInv_started disk, ⟨?_, ?_⟩, ?_, ?_, ?_, ?_⟩
  · intro i inside
    cases inside
  · intro _ i inside
    cases inside
  · show 0 + 0 + 2 ≤ LOGSIZE
    decide
  · intro p b data found
    cases found
  · intro p member
    cases member
  · intro p _
    rfl

/-- If `begin_op` lets an operation in only while all reservations leave two blocks, `log_write`
never panics, and in every state the entries are distinct and pinned. -/
theorem admitted_operations_fit {disk : Nat → Block} {events : List Event}
    (whole : g.size = LOGSIZE) (admissible : Run.Steps (step g) Admissible (started disk) events) :
    Run.Steps (step g) (Fits g) (started disk) events ∧
      ∀ last, Run.exec (step g) (started disk) events = some last → Pinned last := by
  have keeps : ∀ s event next, RoomInv s → Admissible s event → step g s event = some next →
      RoomInv next := fun _ _ _ inv allowed taken => roomInv_step inv allowed taken
  constructor
  · apply Run.steps_of_invariant RoomInv keeps _ (roomInv_started disk) admissible
    intro s event inv _
    cases event with
    | logCheck p b data =>
      have room := inv.room
      show s.lh.n < LOGSIZE ∧ s.lh.n < g.size - 1
      rw [whole]
      omega
    | _ => trivial
  · intro last run
    exact (Run.exec_invariant RoomInv keeps (roomInv_started disk) admissible run).pinned

instance (s : Sys) (event : Event) : Decidable (Limited s event) := by
  rcases event <;> dsimp only [Limited] <;> infer_instance

instance (s : Sys) (event : Event) : Decidable (Roomy s event) := by
  rcases event <;> dsimp only [Roomy] <;> infer_instance

instance (s : Sys) (event : Event) : Decidable (Admissible s event) :=
  inferInstanceAs (Decidable (_ ∧ _ ∧ _))

/-- Operation `p` logs block `b`. -/
def logBlock (p b : Nat) : List Event := [.logCheck p b zero, .logAppend p]

theorem admitted_operations_fit_two :
    let events := [.beginOp 0, .beginOp 1] ++ logBlock 0 100 ++ logBlock 1 101 ++
      [.endOp 0, .endOp 1]
    ∃ last, Run.Steps (step fsLog) Admissible (started fun _ => zero) events ∧
      Run.exec (step fsLog) (started fun _ => zero) events = some last ∧
      Run.Steps (step fsLog) (Fits fsLog) (started fun _ => zero) events ∧ Pinned last := by
  intro events
  have admissible : Run.Steps (step fsLog) Admissible (started fun _ => zero) events := by decide
  have fit := admitted_operations_fit rfl admissible
  exact ⟨_, admissible, rfl, fit.1, fit.2 _ rfl⟩

/-- Three operations are admitted and log 29 blocks together. -/
def fullReservations : List Event :=
  [.beginOp 0, .beginOp 1, .beginOp 2] ++
    (List.range 29).flatMap fun i => logBlock (i / MAXOPBLOCKS) (100 + i)

/-- Each operation keeps to its ten blocks, but the last `log_write` panics. -/
theorem admitted_operation_panics :
    Run.Steps (step fsLog) (fun s event => Regular event ∧ Limited s event)
      (started fun _ => zero) (fullReservations ++ [.logCheck 2 129 zero]) ∧
    (Run.exec (step fsLog) (started fun _ => zero) fullReservations).map
      (fun s => (s.active, s.lh.n, (logCheck fsLog s 2 129 zero).isSome)) =
      some ([2, 1, 0], 29, false) ∧
    ¬ (29 < LOGSIZE ∧ 29 < fsLog.size - 1) := by
  decide +kernel

end Xv6.Log
