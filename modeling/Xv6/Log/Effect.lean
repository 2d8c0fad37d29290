import Xv6.Log.Header

/- What the disk writing steps of `commit` and `recover_from_log` change. -/
namespace Xv6.Log

open Function Bytes List

section

variable (g : Layout) (s : Sys) (tail : Nat)

theorem writeLogBlock_disk : (writeLogBlock g s tail).disk =
    update s.disk (g.start + tail + 1) (s.view (s.lh.block tail)) := by
  simp [writeLogBlock]

theorem writeLogBlock_view (c : Nat) : (writeLogBlock g s tail).view c =
    if c = g.start + tail + 1 then s.view (s.lh.block tail) else s.view c := by
  simp [writeLogBlock, Sys.bwrite_view]

theorem writeLogBlock_dirtyAt (c : Nat) :
    (writeLogBlock g s tail).DirtyAt c ↔ c ≠ g.start + tail + 1 ∧ s.DirtyAt c := by
  simp [writeLogBlock, Sys.bwrite_dirtyAt]

theorem installBlock_disk : (installBlock g s tail).disk =
    update s.disk (s.lh.block tail) (s.view (g.start + tail + 1)) := by
  simp [installBlock]

theorem installBlock_view (c : Nat) : (installBlock g s tail).view c =
    if c = s.lh.block tail then s.view (g.start + tail + 1) else s.view c := by
  simp [installBlock, Sys.bwrite_view]

theorem installBlock_dirtyAt (c : Nat) :
    (installBlock g s tail).DirtyAt c ↔ c ≠ s.lh.block tail ∧ s.DirtyAt c := by
  simp [installBlock, Sys.bwrite_dirtyAt]

theorem writeHead_disk :
    (writeHead g s).disk = update s.disk g.start (putHeader (s.view g.start) s.lh) := by
  simp [writeHead]

theorem writeHead_view (c : Nat) : (writeHead g s).view c =
    if c = g.start then putHeader (s.view g.start) s.lh else s.view c := by
  simp [writeHead, Sys.bwrite_view]

theorem writeHead_dirtyAt (c : Nat) : (writeHead g s).DirtyAt c ↔ c ≠ g.start ∧ s.DirtyAt c := by
  simp [writeHead, Sys.bwrite_dirtyAt]

theorem headCount_writeHead (fits : s.lh.n < 2 ^ 32) :
    headCount g (writeHead g s).disk = s.lh.n := by
  rw [headCount, writeHead_disk, update_self]
  exact getWord_putHeader_count _ _ fits

theorem headBlock_writeHead (small : ∀ i < s.lh.n, s.lh.block i < 2 ^ 32) (i : Nat)
    (inside : i < s.lh.n) : headBlock g (writeHead g s).disk i = s.lh.block i := by
  rw [headBlock, writeHead_disk, update_self]
  exact getWord_putHeader_entry _ _ small i inside

end

section

variable {g : Layout} {s : Sys}

theorem clean_writeLogBlock (clean : s.Clean) (tail : Nat) : (writeLogBlock g s tail).Clean :=
  ((clean.bread _).bread _).bwrite _ _

theorem clean_installBlock (clean : s.Clean) (tail : Nat) : (installBlock g s tail).Clean :=
  ((clean.bread _).bread _).bwrite _ _

theorem clean_writeHead (clean : s.Clean) : (writeHead g s).Clean :=
  (clean.bread _).bwrite _ _

/-- The steps that only write disk blocks: the log in memory and the operations stay. -/
structure Quiet (s t : Sys) : Prop where
  outstanding : t.outstanding = s.outstanding
  committing : t.committing = s.committing
  lh : t.lh = s.lh
  pc : t.pc = s.pc
  active : t.active = s.active
  pending : t.pending = s.pending
  wrote : t.wrote = s.wrote
  settled : t.settled = s.settled

theorem quiet_refl (s : Sys) : Quiet s s := ⟨rfl, rfl, rfl, rfl, rfl, rfl, rfl, rfl⟩

theorem quiet_bread (s : Sys) (b : Nat) : Quiet s (s.bread b) := by
  constructor <;> simp

theorem quiet_writeLogBlock (g : Layout) (s : Sys) (tail : Nat) :
    Quiet s (writeLogBlock g s tail) := by
  constructor <;> simp [writeLogBlock]

theorem quiet_installBlock (g : Layout) (s : Sys) (tail : Nat) :
    Quiet s (installBlock g s tail) := by
  constructor <;> simp [installBlock]

theorem quiet_writeHead (g : Layout) (s : Sys) : Quiet s (writeHead g s) := by
  constructor <;> simp [writeHead]

theorem quiet_recycle {t : Sys} {b : Nat} (taken : recycle s b = some t) : Quiet s t := by
  unfold recycle at taken
  split at taken
  · cases taken
    exact ⟨rfl, rfl, rfl, rfl, rfl, rfl, rfl, rfl⟩
  · cases taken

/-- A step of the buffer cache that nobody can see. -/
structure Unseen (s t : Sys) : Prop where
  quiet : Quiet s t
  disk : t.disk = s.disk
  clean : t.Clean
  view : ∀ b, t.view b = s.view b
  dirty : ∀ b, t.DirtyAt b ↔ s.DirtyAt b

theorem unseen_bread (clean : s.Clean) (b : Nat) : Unseen s (s.bread b) :=
  ⟨quiet_bread s b, s.bread_disk b, clean.bread b, s.bread_view b, s.bread_dirtyAt b⟩

theorem unseen_recycle (clean : s.Clean) {b : Nat} {t : Sys} (taken : recycle s b = some t) :
    Unseen s t := by
  unfold recycle at taken
  split at taken
  · rename_i data cached
    cases taken
    refine ⟨⟨rfl, rfl, rfl, rfl, rfl, rfl, rfl, rfl⟩, rfl, ?_, ?_, ?_⟩
    · intro c buf present flag
      by_cases same : c = b
      · subst same
        simp at present
      · simp only [update_of_ne same] at present
        exact clean c buf present flag
    · intro c
      by_cases same : c = b
      · subst same
        simp only [Sys.view, update_self, cached]
        exact (clean c _ cached rfl).symm
      · simp [Sys.view, same]
    · intro c
      by_cases same : c = b
      · subst same
        simp [Sys.DirtyAt, cached]
      · simp [Sys.DirtyAt, same]
  · cases taken

/-- The block that `log_write` pins is dirty, whatever the disk holds. -/
theorem clean_pin (clean : s.Clean) (b : Nat) (data : Block) (lh : LogHeader)
    (pending : Nat → Option (Nat × Block)) (wrote : Nat → List Nat) :
    Sys.Clean { s with
      lh := lh
      cache := update s.cache b (some ⟨data, true⟩)
      pending := pending
      wrote := wrote } := by
  intro c buf cached flag
  by_cases same : c = b
  · subst same
    simp only [update_self, Option.some.injEq] at cached
    rw [← cached] at flag
    cases flag
  · simp only [update_of_ne same] at cached
    exact clean c buf cached flag

end

section

variable (lh : LogHeader) (b : Nat)

/-- `log_write` finds the block among the first `n` entries, or takes the next one. -/
theorem slotOf_cases :
    (slotOf lh b < lh.n ∧ lh.block (slotOf lh b) = b) ∨
      (slotOf lh b = lh.n ∧ ∀ i < lh.n, lh.block i ≠ b) := by
  unfold slotOf
  cases found : (List.range lh.n).find? (fun i => lh.block i == b) with
  | some i =>
    refine .inl ⟨mem_range.mp (mem_of_find?_eq_some found), ?_⟩
    simpa using find?_some found
  | none =>
    refine .inr ⟨rfl, fun i inside same => ?_⟩
    have absent := find?_eq_none.mp found i (mem_range.mpr inside)
    simp [same] at absent

theorem recordBlock_absorbed (found : slotOf lh b < lh.n) : recordBlock lh b = lh := by
  rcases slotOf_cases lh b with ⟨_, same⟩ | ⟨last, _⟩
  · have apart : slotOf lh b ≠ lh.n := by omega
    unfold recordBlock
    simp only [apart, ↓reduceIte]
    rw [← congrArg (update lh.block (slotOf lh b)) same, update_eq_self]
  · omega

theorem recordBlock_appended (last : slotOf lh b = lh.n) :
    recordBlock lh b = ⟨lh.n + 1, update lh.block lh.n b⟩ := by
  simp only [recordBlock, last, ↓reduceIte]

/-- The entries after `log_write` are the ones before it and the block itself. -/
theorem mem_recordBlock (c : Nat) :
    (∃ i < (recordBlock lh b).n, (recordBlock lh b).block i = c) ↔ c = b ∨ ∃ i < lh.n,
      lh.block i = c := by
  rcases slotOf_cases lh b with ⟨found, same⟩ | ⟨last, _⟩
  · rw [recordBlock_absorbed lh b found]
    constructor
    · exact .inr
    · rintro (rfl | entry)
      · exact ⟨_, found, same⟩
      · exact entry
  rw [recordBlock_appended lh b last]
  dsimp only
  constructor
  · rintro ⟨i, inside, entry⟩
    by_cases here : i = lh.n
    · subst here
      exact .inl (by rw [← entry, update_self])
    · rw [update_of_ne here] at entry
      exact .inr ⟨i, by omega, entry⟩
  · rintro (rfl | ⟨i, inside, entry⟩)
    · exact ⟨lh.n, by omega, update_self _ _ _⟩
    · refine ⟨i, by omega, ?_⟩
      rw [update_of_ne (show i ≠ lh.n by omega)]
      exact entry

theorem recordBlock_home {lh : LogHeader} {b : Nat} {g : Layout} (home : g.home b)
    (entries : ∀ i < lh.n, g.home (lh.block i)) :
    ∀ i < (recordBlock lh b).n, g.home ((recordBlock lh b).block i) := by
  intro i inside
  rcases (mem_recordBlock lh b _).mp ⟨i, inside, rfl⟩ with same | ⟨j, bound, same⟩
  · rw [same]; exact home
  · rw [← same]; exact entries j bound

theorem distinct_recordBlock {lh : LogHeader} {b : Nat}
    (distinct : ∀ i < lh.n, ∀ j < lh.n, lh.block i = lh.block j → i = j) :
    ∀ i < (recordBlock lh b).n, ∀ j < (recordBlock lh b).n,
      (recordBlock lh b).block i = (recordBlock lh b).block j → i = j := by
  rcases slotOf_cases lh b with ⟨found, _⟩ | ⟨last, absent⟩
  · rw [recordBlock_absorbed lh b found]
    exact distinct
  rw [recordBlock_appended lh b last]
  intro i first j second same
  dsimp only at first second same
  by_cases atI : i = lh.n
  · by_cases atJ : j = lh.n
    · rw [atI, atJ]
    · rw [atI, update_self, update_of_ne atJ] at same
      exact absurd same.symm (absent j (by omega))
  · by_cases atJ : j = lh.n
    · rw [atJ, update_self, update_of_ne atI] at same
      exact absurd same (absent i (by omega))
    · rw [update_of_ne atI, update_of_ne atJ] at same
      exact distinct i (by omega) j (by omega) same

/-- With room in the log, `log_write` leaves entries that fit and are home blocks. -/
theorem recordBlock_within {lh : LogHeader} {b : Nat} {g : Layout} (home : g.home b)
    (entries : ∀ i < lh.n, g.home (lh.block i)) (fits : lh.n + 1 ≤ g.size) (small : lh.n ≤ LOGSIZE)
    (room : slotOf lh b < lh.n ∨ (lh.n < LOGSIZE ∧ lh.n + 1 < g.size)) :
    (∀ i < (recordBlock lh b).n, g.home ((recordBlock lh b).block i)) ∧
      (recordBlock lh b).n + 1 ≤ g.size ∧ (recordBlock lh b).n ≤ LOGSIZE := by
  refine ⟨recordBlock_home home entries, ?_⟩
  rcases slotOf_cases lh b with ⟨found, _⟩ | ⟨last, _⟩
  · rw [recordBlock_absorbed _ _ found]
    exact ⟨fits, small⟩
  · rw [recordBlock_appended _ _ last]
    dsimp only
    omega

end

section Inversion

variable {g : Layout} {s t : Sys} {p : Nat}

theorem beginOp_eq_some (taken : beginOp s p = some t) :
    s.pc .boot = none ∧ p ∉ s.active ∧ s.committing = false ∧
      s.lh.n + (s.outstanding + 1) * MAXOPBLOCKS ≤ LOGSIZE ∧
      t = { s with outstanding := s.outstanding + 1, active := p :: s.active } := by
  unfold beginOp at taken
  split at taken
  · cases taken
  rename_i outside
  rw [not_or, not_not] at outside
  split at taken
  · cases taken
  rename_i unlocked
  split at taken
  · cases taken
  · rename_i room
    cases taken
    exact ⟨outside.1, outside.2, Bool.not_eq_true _ ▸ unlocked, Nat.le_of_not_lt room, rfl⟩

theorem logCheck_eq_some {b : Nat} {data : Block} (taken : logCheck g s p b data = some t) :
    p ∈ s.active ∧ s.pending p = none ∧ s.lh.n < LOGSIZE ∧ s.lh.n + 1 < g.size ∧ g.home b ∧
      t = { s with pending := update s.pending p (some (b, data)) } := by
  unfold logCheck at taken
  split at taken
  · cases taken
  rename_i room
  rw [not_or, Nat.not_le, Nat.not_le] at room
  split at taken
  · cases taken
  · obtain ⟨given, taken⟩ := Option.ite_none_right_eq_some.mp taken
    cases taken
    exact ⟨given.1, given.2.1, room.1, room.2, given.2.2.1, rfl⟩

theorem logAppend_eq_some (taken : logAppend s p = some t) :
    ∃ b data, s.pending p = some (b, data) ∧ t = { s with
      lh := recordBlock s.lh b
      cache := update s.cache b (some ⟨data, true⟩)
      pending := update s.pending p none
      wrote := update s.wrote p (b :: s.wrote p) } := by
  unfold logAppend at taken
  split at taken
  · cases taken
  · rename_i b data held
    cases taken
    exact ⟨b, data, held, rfl⟩

/-- `end_op` without the commit. -/
def ended (s : Sys) (p : Nat) : Sys :=
  { s with
    outstanding := s.outstanding - 1
    active := s.active.erase p
    wrote := update s.wrote p []
    settled := fun b => if b ∈ s.wrote p then s.view b else s.settled b }

theorem endOp_eq_some (taken : endOp g s p = some t) :
    p ∈ s.active ∧ s.pending p = none ∧ s.committing = false ∧
      ((s.outstanding - 1 = 0 ∧ s.lh.n > g.size / 2 ∧
        t = Sys.setPc { ended s p with committing := true } .endOp (some .entry)) ∨
      ((s.outstanding - 1 = 0 → s.lh.n ≤ g.size / 2) ∧ t = ended s p)) := by
  unfold endOp at taken
  split at taken
  · cases taken
  rename_i inside
  rw [not_or, not_not, not_not] at inside
  split at taken
  · cases taken
  rename_i unlocked
  refine ⟨inside.1, inside.2, Bool.not_eq_true _ ▸ unlocked, ?_⟩
  dsimp only at taken
  split at taken
  · rename_i full
    cases taken
    exact .inl ⟨full.1, full.2, rfl⟩
  rename_i room
  cases taken
  refine .inr ⟨?_, rfl⟩
  intro last
  by_contra larger
  exact room ⟨last, Nat.lt_of_not_le larger⟩

theorem sysSync_eq_some (taken : sysSync s = some t) :
    s.pc .boot = none ∧ s.pc .sync = none ∧ t = s.setPc .sync (some .entry) := by
  unfold sysSync at taken
  split at taken
  · cases taken
  · rename_i idle
    rw [not_or, not_not, not_not] at idle
    cases taken
    exact ⟨idle.1, idle.2, rfl⟩

/-- Who holds a buffer after the test of `log_write`. -/
theorem pending_logCheck {p b : Nat} {data : Block}
    (pending : ∀ p b data, s.pending p = some (b, data) → p ∈ s.active ∧ g.home b)
    (taken : logCheck g s p b data = some t) :
    ∀ p b data, t.pending p = some (b, data) → p ∈ t.active ∧ g.home b := by
  obtain ⟨member, _, _, _, home, same⟩ := logCheck_eq_some taken
  rw [same]
  refine (forall_update_iff s.pending fun q now => ∀ c other, now = some (c, other) →
    q ∈ s.active ∧ g.home c).mpr ⟨fun c other held => ?_, fun q _ => pending q⟩
  cases held
  exact ⟨member, home⟩

/-- Who still holds one after its locked part, or when an operation ends. -/
theorem pending_erased {p : Nat}
    (pending : ∀ p b data, s.pending p = some (b, data) → p ∈ s.active ∧ g.home b) :
    ∀ q b data, update s.pending p none q = some (b, data) → q ∈ s.active ∧ g.home b := by
  refine (forall_update_iff s.pending fun q now => ∀ c other, now = some (c, other) →
    q ∈ s.active ∧ g.home c).mpr ⟨fun c other held => ?_, fun q _ => pending q⟩
  cases held

/-- An operation that ends has no block on its way into the log. -/
theorem pending_ended {p : Nat} (free : s.pending p = none)
    (pending : ∀ p b data, s.pending p = some (b, data) → p ∈ s.active ∧ g.home b) :
    ∀ q b data, s.pending q = some (b, data) → q ∈ s.active.erase p ∧ g.home b := by
  intro q b data held
  refine (pending q b data held).imp_left (mem_erase_of_ne fun same => ?_).mpr
  cases free.symm.trans (same ▸ held)

end Inversion

/-- The block that a step of `commit` writes. -/
def written (g : Layout) (s : Sys) : Pc → Sys
  | .writeLog tail => if tail < s.lh.n then writeLogBlock g s tail else s
  | .install tail => if tail < s.lh.n then installBlock g s tail else s
  | .writeHead | .erase => writeHead g s
  | _ => s

/-- Where it goes on. -/
def nextPc (s : Sys) : Pc → Pc
  | .entry => if s.lh.n > 0 then .writeLog 0 else .finish
  | .writeLog tail => if tail < s.lh.n then .writeLog (tail + 1) else .writeHead
  | .writeHead => .install 0
  | .install tail => if tail < s.lh.n then .install (tail + 1) else .clear
  | .erase => .finish
  | pc => pc

/-- Apart from three of them, the steps of `commit` write at most one block and go on. -/
theorem advance_eq (g : Layout) (s : Sys) (agent : Agent) (pc : Pc) :
    pc = .readHead ∨ pc = .clear ∨ pc = .finish ∨
      advance g s agent pc = (written g s pc).setPc agent (some (nextPc s pc)) := by
  cases pc with
  | readHead => exact .inl rfl
  | clear => exact .inr (.inl rfl)
  | finish => exact .inr (.inr (.inl rfl))
  | writeLog tail | install tail =>
    refine .inr (.inr (.inr ?_))
    simp only [advance, written, nextPc]
    split
    all_goals rfl
  | _ => exact .inr (.inr (.inr rfl))

theorem quiet_written (g : Layout) (s : Sys) (pc : Pc) : Quiet s (written g s pc) := by
  cases pc with
  | writeLog tail =>
    simp only [written]
    split
    · exact quiet_writeLogBlock g s tail
    · exact quiet_refl s
  | install tail =>
    simp only [written]
    split
    · exact quiet_installBlock g s tail
    · exact quiet_refl s
  | writeHead | erase => exact quiet_writeHead g s
  | _ => exact quiet_refl s

theorem nextPc_ne_readHead {s : Sys} {pc : Pc} (noRead : pc ≠ .readHead) :
    nextPc s pc ≠ .readHead := by
  cases pc with
  | readHead => exact noRead
  | entry | writeLog | install =>
    simp only [nextPc]
    split
    all_goals exact Pc.noConfusion
  | _ => exact Pc.noConfusion

/-- The last steps come after the log is emptied, or if it was empty. -/
theorem nextPc_last {s : Sys} {pc : Pc} (last : nextPc s pc = .erase ∨ nextPc s pc = .finish) :
    (pc = .erase ∨ pc = .finish) ∨ s.lh.n = 0 := by
  cases pc with
  | entry =>
    simp only [nextPc] at last
    split at last
    · exact last.elim Pc.noConfusion Pc.noConfusion
    · exact .inr (Nat.eq_zero_of_not_pos ‹_›)
  | writeLog | install =>
    simp only [nextPc] at last
    split at last
    all_goals exact last.elim Pc.noConfusion Pc.noConfusion
  | erase => exact .inl (.inl rfl)
  | finish => exact .inl (.inr rfl)
  | _ => exact last.elim Pc.noConfusion Pc.noConfusion

/-- No step of `commit` or `recover_from_log` begins or ends an operation. -/
theorem advance_ops (g : Layout) (s : Sys) (agent : Agent) (pc : Pc) :
    (advance g s agent pc).outstanding = s.outstanding ∧
      (advance g s agent pc).active = s.active := by
  rcases advance_eq g s agent pc with rfl | rfl | rfl | same
  · simp [advance, readHead]
  · exact ⟨rfl, rfl⟩
  · exact ⟨rfl, rfl⟩
  · rw [same]
    exact ⟨(quiet_written g s pc).outstanding, (quiet_written g s pc).active⟩

end Xv6.Log
