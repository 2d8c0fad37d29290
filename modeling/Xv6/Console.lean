import Xv6.Lib.Ring
import Xv6.Lib.Run

/- console.c: the line that is typed, and the bytes that processes read. A character and a turn of
the loop of `consoleread` are one step each, under `cons.lock`; a process that would sleep takes no
step. -/
namespace Xv6.Console

open Function Ring List

abbrev INPUT_BUF : Nat := 128

/-- Control with a letter. -/
abbrev C (letter : Char) : UInt8 := UInt8.ofNat (letter.toNat - '@'.toNat)

abbrev newline : UInt8 := 10

structure Input where
  buf : Nat → UInt8
  r : UInt32
  w : UInt32
  e : UInt32

/-- The byte that a free-running index stands for. -/
def Input.byte (input : Input) (index : UInt32) : UInt8 := input.buf (index.toNat % INPUT_BUF)

/-- The loop behind control U. -/
def killLine : Nat → Input → Input
  | 0, input => input
  | fuel + 1, input =>
    if input.e ≠ input.w ∧ input.byte (input.e - 1) ≠ newline then
      killLine fuel { input with e := input.e - 1 }
    else input

/-- One character. At most `INPUT_BUF` of them are erased with a line. -/
def consoleintr (input : Input) (c : UInt8) : Input :=
  if c = C 'P' then input
  else if c = C 'U' then killLine INPUT_BUF input
  else if c = C 'H' ∨ c = 0x7f then
    if input.e ≠ input.w then { input with e := input.e - 1 } else input
  else if c ≠ 0 ∧ input.e - input.r < UInt32.ofNat INPUT_BUF then
    let c := if c = 13 then newline else c
    let input := { input with
      buf := update input.buf (input.e.toNat % INPUT_BUF) c, e := input.e + 1 }
    if c = newline ∨ c = C 'D' ∨ input.e = input.r + UInt32.ofNat INPUT_BUF then
      { input with w := input.e }
    else input
  else input

/-- Where a process is in `consoleread`: it has read some bytes and asks for `n` more, or it has
returned with them, or with -1. -/
inductive Point where
  | reading (n : Nat) (got : List UInt8)
  | returned (result : Option (List UInt8))
deriving DecidableEq

/-- The input and its readers, with all the bytes that were committed and all that were stored for
readers. -/
structure State where
  input : Input
  point : Nat → Point
  killed : Nat → Bool
  committed : List UInt8
  delivered : List UInt8

def start : State := ⟨⟨fun _ => 0, 0, 0, 0⟩, fun _ => .returned none, fun _ => false, [], []⟩

inductive Event where
  | input (c : UInt8)
  | consoleread (p : Nat) (n : Int)
  | turn (p : Nat)
  | kill (p : Nat)

/-- The bytes from one index up to another one. -/
def Input.between (input : Input) (low high : UInt32) : List UInt8 :=
  (List.range (high - low).toNat).map fun i => input.buf ((low.toNat + i) % INPUT_BUF)

/-- A turn of the loop of `consoleread`. An end of file is left for the next call if there are bytes
to return. -/
def turn (s : State) (p n : Nat) (got : List UInt8) : Option State :=
  if s.input.r = s.input.w then
    if s.killed p then some { s with point := update s.point p (.returned none) } else none
  else
    let c := s.input.byte s.input.r
    let next := { s.input with r := s.input.r + 1 }
    if c = C 'D' then
      some { s with
        input := if got = [] then next else s.input
        point := update s.point p (.returned (some got)) }
    else
      some { s with
        input := next
        delivered := s.delivered ++ [c]
        point := update s.point p
          (if n = 1 ∨ c = newline then .returned (some (got ++ [c]))
            else .reading (n - 1) (got ++ [c])) }

def step (s : State) : Event → Option State
  | .input c =>
    let input := consoleintr s.input c
    some { s with input := input, committed := s.committed ++ input.between s.input.w input.w }
  | .consoleread p n =>
    match s.point p with
    | .reading _ _ => none
    | .returned _ => some { s with
        point := update s.point p (if n > 0 then .reading n.toNat [] else .returned (some [])) }
  | .turn p =>
    match s.point p with
    | .reading n got => turn s p n got
    | .returned _ => none
  | .kill p => some { s with killed := update s.killed p true }

variable {s next : State} {event : Event} {taken : Nat} {committed line : List UInt8}
    {input : Input}

/-- The indices count the bytes that were read, committed and typed, and the buffer has those that
were not read. -/
structure Holding (input : Input) (taken : Nat) (committed line : List UInt8) : Prop where
  holds : Holds INPUT_BUF input.buf taken (committed ++ line)
  behind : taken ≤ committed.length
  r : input.r = UInt32.ofNat taken
  w : input.w = UInt32.ofNat committed.length
  e : input.e = UInt32.ofNat (committed ++ line).length

/-- No byte of the line has committed it. -/
def Unended (line : List UInt8) : Prop := ∀ c ∈ line, c ≠ newline

theorem between_eq {stream rest : List UInt8} {low high : UInt32}
    (holds : Holds INPUT_BUF input.buf taken (stream ++ rest)) (behind : taken ≤ stream.length)
    (first : low = UInt32.ofNat stream.length) (count : (high - low).toNat = rest.length) :
    input.between low high = rest := by
  unfold Input.between
  rw [count]
  refine Eq.trans (map_congr_left fun i _ => congrArg input.buf ?_) (holds.suffix behind)
  rw [first, UInt32.toNat_ofNat']
  unfold INPUT_BUF
  omega

section Holding

variable (holding : Holding input taken committed line)
include holding

theorem Holding.near : taken ≤ committed.length ∧ committed.length ≤ (committed ++ line).length ∧
    (committed ++ line).length ≤ taken + 128 :=
  ⟨holding.behind, by rw [length_append]; exact Nat.le_add_right _ _, holding.holds.fits⟩

theorem Holding.sub_w : (input.w - input.r).toNat = committed.length - taken := by
  have := holding.near
  rw [holding.w, holding.r, counter_sub (by omega) (by omega)]

theorem Holding.sub_e : (input.e - input.r).toNat = (committed ++ line).length - taken := by
  have := holding.near
  rw [holding.e, holding.r, counter_sub (by omega) (by omega)]

theorem Holding.line_length : (input.e - input.w).toNat = line.length := by
  have := holding.near
  rw [holding.e, holding.w, counter_sub (by omega) (by omega), length_append,
      Nat.add_sub_cancel_left]

theorem Holding.e_eq_w : input.e = input.w ↔ line = [] := by
  have := holding.near
  rw [eq_comm, holding.e, holding.w, counter_eq (by omega) (by omega), ← length_eq_zero_iff,
    length_append]
  omega

theorem Holding.between : input.between input.w input.e = line :=
  between_eq holding.holds holding.behind holding.w holding.line_length

theorem Holding.unread : input.between input.r input.w = committed.drop taken := by
  have parts := holding.holds.shorten holding.behind
  rw [← take_append_drop taken committed] at parts
  have length : (committed.take taken).length = taken := by
    rw [length_take, Nat.min_eq_left holding.behind]
  refine between_eq parts (Nat.le_of_eq length.symm) ?_ ?_
  · rw [length, holding.r]
  · rw [holding.sub_w, length_drop]

end Holding

theorem length_typed (committed line : List UInt8) (c : UInt8) :
    (committed ++ (line ++ [c])).length = (committed ++ line).length + 1 := by
  rw [← append_assoc, length_append]
  rfl

theorem Holding.erase {c : UInt8} (holding : Holding input taken committed (line ++ [c])) :
    input.byte (input.e - 1) = c ∧
      Holding { input with e := input.e - 1 } taken committed line := by
  have holds := holding.holds
  rw [← append_assoc] at holds
  have before : input.e - 1 = UInt32.ofNat (committed ++ line).length := by
    rw [holding.e, length_typed, UInt32.ofNat_add]
    exact UInt32.add_sub_cancel _ _
  have behind : taken ≤ (committed ++ line).length := by
    rw [length_append]
    exact Nat.le_add_right_of_le holding.behind
  refine ⟨?_, holds.shorten behind, holding.behind, holding.r, holding.w, before⟩
  have item := holds.items (committed ++ line).length behind
    (by rw [append_assoc, length_typed]; exact Nat.lt_succ_self _)
  rw [getElem?_concat_length] at item
  unfold Input.byte
  rw [before, counter_mod (by decide)]
  exact (Option.some.inj item).symm

/-- The whole line is erased, so the loop has come to its end. -/
theorem Holding.killed {fuel : Nat} (holding : Holding input taken committed line)
    (unended : Unended line) (enough : line.length ≤ fuel) :
    Holding (killLine fuel input) taken committed [] := by
  induction fuel generalizing input line with
  | zero =>
    cases eq_nil_of_length_eq_zero (Nat.le_zero.mp enough)
    exact holding
  | succ fuel ih =>
    unfold killLine
    rcases eq_nil_or_concat' line with rfl | ⟨rest, c, rfl⟩
    · rw [if_neg fun more => more.1 (holding.e_eq_w.mpr rfl)]
      exact holding
    · obtain ⟨last, shorter⟩ := holding.erase
      have more : input.e ≠ input.w :=
        mt holding.e_eq_w.mp (append_ne_nil_of_right_ne_nil _ (cons_ne_nil _ _))
      rw [if_pos ⟨more, last ▸ unended c (mem_append_right _ mem_cons_self)⟩]
      refine ih shorter (fun b member => unended b (mem_append_left _ member)) ?_
      rw [length_append] at enough
      exact Nat.le_of_succ_le_succ enough

/-- Erasing characters. -/
def Erases (c : UInt8) : Prop := c = C 'U' ∨ c = C 'H' ∨ c = 0x7f

/-- A character takes bytes from the line, or is put behind it; then the line may be committed. -/
theorem consoleintr_cases (holding : Holding input taken committed line) (unended : Unended line)
    (c : UInt8) :
    (∃ rest, rest <+: line ∧ Holding (consoleintr input c) taken committed rest) ∨
    ¬ Erases c ∧ ∃ b, b ≠ newline ∧ Holding (consoleintr input c) taken committed (line ++ [b]) ∨
      (consoleintr input c).between input.w (consoleintr input c).w = line ++ [b] ∧
        Holding (consoleintr input c) taken (committed ++ (line ++ [b])) [] := by
  have same : ∃ rest, rest <+: line ∧ Holding input taken committed rest :=
    ⟨line, prefix_rfl, holding⟩
  unfold consoleintr
  split
  · exact .inl same
  split
  · have enough : line.length ≤ 128 := by
      have near := holding.near
      rw [length_append] at near
      omega
    exact .inl ⟨[], nil_prefix, holding.killed unended enough⟩
  rename_i notU
  split
  · split
    · rename_i more
      rcases eq_nil_or_concat' line with rfl | ⟨rest, b, rfl⟩
      · exact absurd (holding.e_eq_w.mpr rfl) more
      · exact .inl ⟨rest, prefix_append _ _, holding.erase.2⟩
    · exact .inl same
  rename_i notH
  split
  · rename_i typed
    have room : (committed ++ line).length < taken + INPUT_BUF := by
      have less := UInt32.lt_iff_toNat_lt.mp typed.2
      rw [holding.sub_e, UInt32.toNat_ofNat'] at less
      unfold INPUT_BUF at *
      omega
    refine .inr ⟨fun erases => erases.elim notU notH, if c = 13 then newline else c, ?_⟩
    generalize (if c = 13 then newline else c) = b
    have place : input.e.toNat % INPUT_BUF = (committed ++ line).length % INPUT_BUF := by
      rw [holding.e, counter_mod (by decide)]
    dsimp only
    rw [place]
    have longer : Holding { input with
        buf := update input.buf ((committed ++ line).length % INPUT_BUF) b
        e := input.e + 1 } taken committed (line ++ [b]) := by
      have stored := holding.holds.store b room
      rw [append_assoc] at stored
      refine ⟨stored, holding.behind, holding.r, holding.w, ?_⟩
      show input.e + 1 = _
      rw [holding.e, length_typed, UInt32.ofNat_add]
      rfl
    split
    · refine .inr ⟨longer.between, ?_, ?_, longer.r, longer.e, ?_⟩
      · rw [append_nil]
        exact longer.holds
      · rw [length_append]
        exact Nat.le_add_right_of_le holding.behind
      · rw [append_nil]
        exact longer.e
    · rename_i goesOn
      exact .inl ⟨fun ends => goesOn (.inl ends), longer⟩
  · exact .inl same

/-- What holds between the steps. -/
def Inv (s : State) : Prop :=
  ∃ taken line, Holding s.input taken s.committed line ∧ Unended line ∧
    s.delivered = (s.committed.take taken).filter (· != C 'D')

theorem inv_input (inv : Inv s) (c : UInt8) (ran : step s (.input c) = some next) : Inv next := by
  obtain ⟨taken, line, holding, unended, delivered⟩ := inv
  cases ran
  have stays {t : Input} {rest : List UInt8} (after : Holding t taken s.committed rest) :
      s.committed ++ t.between s.input.w t.w = s.committed := by
    rw [after.w, holding.w, Input.between, UInt32.sub_self]
    exact append_nil _
  unfold Inv
  dsimp only
  rcases consoleintr_cases holding unended c with ⟨rest, shorter, after⟩ |
    ⟨_, b, ⟨goesOn, after⟩ | ⟨new, after⟩⟩
  · rw [stays after]
    exact ⟨taken, rest, after, fun b member => unended b (shorter.subset member), delivered⟩
  · rw [stays after]
    refine ⟨taken, _, after, fun x member => ?_, delivered⟩
    rcases mem_append.mp member with old | isNew
    · exact unended x old
    · rwa [mem_singleton.mp isNew]
  · rw [new]
    refine ⟨taken, [], after, nofun, ?_⟩
    rw [take_append_of_le_length holding.behind]
    exact delivered

theorem Holding.consume (holding : Holding input taken committed line) (more : input.r ≠ input.w) :
    committed.take (taken + 1) = committed.take taken ++ [input.byte input.r] ∧
      Holding { input with r := input.r + 1 } (taken + 1) committed line := by
  have near := holding.near
  have less : taken < committed.length := by
    rw [holding.r, holding.w, ne_eq, counter_eq (by omega) (by omega)] at more
    omega
  obtain ⟨item, rest⟩ := holding.holds.take (Nat.lt_of_lt_of_le less near.2.1)
  rw [getElem?_append_left less] at item
  refine ⟨?_, rest, less, ?_, holding.w, holding.e⟩
  · unfold Input.byte
    rw [take_add_one, item, holding.r, counter_mod (by decide)]
    rfl
  · show input.r + 1 = _
    rw [holding.r, UInt32.ofNat_add]
    rfl

theorem inv_turn {p n : Nat} {got : List UInt8} (inv : Inv s) (ran : turn s p n got = some next) :
    Inv next := by
  obtain ⟨taken, line, holding, unended, delivered⟩ := inv
  unfold turn at ran
  split at ran
  · split at ran
    · cases ran
      exact ⟨taken, line, holding, unended, delivered⟩
    · cases ran
  rename_i more
  obtain ⟨longer, after⟩ := holding.consume more
  dsimp only at ran
  split at ran
  · rename_i isEnd
    cases ran
    by_cases first : got = []
    · rw [if_pos first]
      refine ⟨taken + 1, line, after, unended, ?_⟩
      rw [longer, filter_append, isEnd, ← delivered]
      exact (append_nil _).symm
    · rw [if_neg first]
      exact ⟨taken, line, holding, unended, delivered⟩
  · rename_i notEnd
    cases ran
    have kept : [s.input.byte s.input.r].filter (· != C 'D') = [s.input.byte s.input.r] :=
      filter_eq_self.mpr fun c member => bne_iff_ne.mpr (mem_singleton.mp member ▸ notEnd)
    refine ⟨taken + 1, line, after, unended, ?_⟩
    rw [longer, filter_append, ← delivered, kept]

theorem inv_step (inv : Inv s) (ran : step s event = some next) : Inv next := by
  cases event with
  | input c => exact inv_input inv c ran
  | consoleread p n =>
    dsimp only [step] at ran
    split at ran
    · cases ran
    · cases ran
      exact inv
  | turn p =>
    dsimp only [step] at ran
    split at ran
    · exact inv_turn inv ran
    · cases ran
  | kill p =>
    cases ran
    exact inv

/-- In every state that a run reaches, the indices are in order and at most a buffer apart. The
bytes that are committed and not read are as they were committed, and those before them were stored
for readers in their order, without the ends of files. Erasing touches the line only. An end of file
ends a read, and it is consumed if it comes first. -/
theorem console_disciplined (events : List Event) (s : State)
    (run : Run.exec step start events = some s) :
    (s.input.w - s.input.r).toNat ≤ (s.input.e - s.input.r).toNat ∧
    (s.input.e - s.input.r).toNat ≤ INPUT_BUF ∧
    (∃ read, s.committed = read ++ s.input.between s.input.r s.input.w ∧
      s.delivered = read.filter (· != C 'D')) ∧
    (∀ c, Erases c → (consoleintr s.input c).r = s.input.r ∧ (consoleintr s.input c).w = s.input.w ∧
      ((consoleintr s.input c).e - s.input.w).toNat ≤ (s.input.e - s.input.w).toNat) ∧
    ∀ p n got, s.point p = .reading n got → s.input.r ≠ s.input.w → s.input.byte s.input.r = C 'D' →
      ∃ next, step s (.turn p) = some next ∧ next.point p = .returned (some got) ∧
        next.delivered = s.delivered ∧ next.input.r = if got = [] then s.input.r + 1
          else s.input.r := by
  have first : Inv start := ⟨0, [], ⟨Ring.holds_nil _ _, Nat.le_refl _, rfl, rfl, rfl⟩, nofun, rfl⟩
  obtain ⟨taken, line, holding, unended, delivered⟩ := Run.exec_invariant Inv
    (fun _ _ _ inv _ ran => inv_step inv ran) first (Run.steps_of_forall
      (fun _ _ => trivial) start events) run
  have near := holding.near
  rw [holding.sub_w, holding.sub_e]
  refine ⟨by omega, by unfold INPUT_BUF; omega, ⟨_, ?_, delivered⟩, fun c erases => ?_, ?_⟩
  · rw [holding.unread, take_append_drop]
  · rcases consoleintr_cases holding unended c with ⟨rest, shorter, after⟩ | ⟨keeps, _⟩
    · rw [holding.line_length, holding.w, ← after.w, after.line_length, after.r, holding.r]
      exact ⟨rfl, rfl, shorter.length_le⟩
    · exact absurd erases keeps
  · intro p n got here more isEnd
    refine ⟨{ s with
      input := if got = [] then { s.input with r := s.input.r + 1 } else s.input
      point := update s.point p (.returned (some got)) }, ?_, update_self _ _ _, rfl, ?_⟩
    · dsimp only [step]
      rw [here]
      dsimp only [turn]
      rw [if_neg more, if_pos isEnd]
    · dsimp only
      split <;> rfl

/-- A process asks for ten bytes; `ab` is typed, `b` is erased, and `c` with a newline follows. -/
def typedLine : List Event :=
  [.consoleread 0 10, .input 97, .input 98, .input (C 'H'), .input 99, .input 13, .turn 0,
      .turn 0, .turn 0]

theorem console_disciplined_line : ∃ s, Run.exec step start typedLine = some s ∧
    s.point 0 = .returned (some [97, 99, 10]) ∧ ∃ read,
      s.committed = read ++ s.input.between s.input.r s.input.w ∧
      s.delivered = read.filter (· != C 'D') := by
  have run : ((Run.exec step start typedLine).map fun s => s.point 0) =
      some (.returned (some [97, 99, 10])) := by decide +kernel
  obtain ⟨s, run, point⟩ := Option.map_eq_some_iff.mp run
  exact ⟨s, run, point, (console_disciplined typedLine s run).2.2.1⟩

end Xv6.Console
