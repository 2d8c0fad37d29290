import Mathlib.Algebra.BigOperators.Group.Finset.Piecewise
import Mathlib.Algebra.GroupWithZero.Nat
import Xv6.Fs.Pwrite
import Xv6.Lib.Run

/- `filewrite` called by many processes on one `struct file`. The inode is locked for one turn of
the loop at a time, so the turns of different calls may come in any order. -/
namespace Xv6.Fs.Sharing

open Function Outcome Overlay List

/-- A call that has not returned: its number, and `n` and `i` of the source. -/
structure Call where
  id : Nat
  n : Nat
  i : Nat

/-- What one turn of a call has put into the file. -/
structure Chunk where
  writer : Nat
  call : Nat
  i : Nat
  off : Nat
  bytes : List UInt8

/-- The file system, the shared `struct file`, and the calls on it, which are numbered. `log` has
the chunks in the order in which they were written, `returned` the values of the calls that are
over. -/
structure Shared where
  fs : State
  file : File
  call : Nat → Option Call
  calls : Nat
  log : List Chunk
  returned : Nat → Option (Option Nat)

inductive Event where
  | write (writer n : Nat)
  /-- The next turn of a writer, with its buffer as it is then; whether its `end_op` is the last. -/
  | turn (writer : Nat) (src : Nat → UInt8) (last : Bool)

variable (sb : Superblock) (out : Outside)

/-- One turn of the `while` loop of `filewrite`: the new `f->off`, and `r` unless the loop
breaks. -/
def filewriteTurn (src : Nat → UInt8) (n k : Nat) (last : Bool) (s : State) (off i : Nat) :
    Except Panic (State × Nat × Option Nat) := do
  let n1 := if n - i > MAXCHUNK then MAXCHUNK else n - i
  let s ← ilock sb s k
  let (s, r) ← writei sb out.devsw s k (fun j => src (i + j)) off n1
  let off := off + r.getD 0
  let s := if last then endOp sb s else s
  match r with
  | none => .ok (s, off, none)
  | some r => if r ≠ n1 then .error .shortFilewrite else .ok (s, off, some r)

/-- The loop of one writer alone is a sequence of such turns. -/
theorem filewriteLoop_turn (src : Nat → UInt8) (n k fuel : Nat) (s : State) (off i : Nat)
    (more : i < n) :
    filewriteLoop sb out src n k (fuel + 1) s off i = filewriteTurn sb out src n k true s off i >>=
      fun t =>
        t.2.2.elim (.ok (t.1, t.2.1, i)) fun r =>
          filewriteLoop sb out src n k fuel t.1 t.2.1 (i + r) := by
  rw [filewriteLoop, if_pos more, filewriteTurn]
  generalize (if n - i > MAXCHUNK then MAXCHUNK else n - i) = n1
  simp only [bind_assoc]
  congr 1
  funext s
  congr 1
  funext result
  obtain ⟨s, r⟩ := result
  cases r with
  | none => rfl
  | some r =>
    dsimp only
    by_cases whole : r = n1
    · rw [if_neg (not_not_intro whole), if_neg (not_not_intro whole)]
      rfl
    · rw [if_pos whole, if_pos whole]
      rfl

/-- The return from a call. -/
def Shared.finish (s : Shared) (w : Nat) (c : Call) : Shared :=
  { s with
    call := update s.call w none
    returned := update s.returned c.id (some (if c.i = c.n then some c.n else none)) }

def Shared.step (s : Shared) : Event → Option Shared
  | .write w n =>
    if s.call w = none ∧ s.file.writable = true ∧ s.file.type = .inode then
      some { s with call := update s.call w (some ⟨s.calls, n, 0⟩), calls := s.calls + 1 }
    else none
  | .turn w src last =>
    match s.call w with
    | none => none
    | some c =>
      if c.i < c.n then
        (filewriteTurn sb out src c.n s.file.ip last s.fs s.file.off c.i).toOption.map
          fun (fs, off, r) =>
            let t : Shared := { s with fs := fs, file := { s.file with off := off } }
            match r with
            | none => t.finish w c
            | some r => { t with
                call := update s.call w (some { c with i := c.i + r })
                log := s.log ++ [⟨w, c.id, c.i, s.file.off, stretch src c.i r⟩] }
      else some (s.finish w c)

/-- No call yet. -/
def Shared.start (s : State) (f : File) : Shared := ⟨s, f, fun _ => none, 0, [], fun _ => none⟩

/-- The number of bytes in some chunks. -/
def total (log : List Chunk) : Nat := (log.map fun c => c.bytes.length).sum

/-- The number of bytes that call `id` has written. -/
def progress (log : List Chunk) (id : Nat) : Nat := total (log.filter fun c => c.call == id)

theorem total_concat (log : List Chunk) (c : Chunk) :
    total (log ++ [c]) = total log + c.bytes.length := by
  simp only [total, map_append, map_cons, map_nil, sum_append, sum_singleton]

theorem length_bytes (log : List Chunk) : (log.flatMap Chunk.bytes).length = total log := by
  rw [length_flatMap]
  rfl

theorem progress_concat (log : List Chunk) (c : Chunk) (id : Nat) :
    progress (log ++ [c]) id = progress log id + if c.call = id then c.bytes.length else 0 := by
  unfold progress
  rw [filter_append]
  by_cases mine : c.call = id
  · simp only [mine, filter_cons, beq_self_eq_true, if_true, filter_nil, total_concat]
  · simp only [mine, filter_cons, beq_iff_eq, if_false, filter_nil, append_nil, Nat.add_zero]

theorem progress_other {log : List Chunk} {id : Nat} (other : ∀ c ∈ log, c.call ≠ id) :
    progress log id = 0 := by
  unfold progress
  rw [filter_eq_nil_iff.mpr (fun c mem same => other c mem (beq_iff_eq.mp same))]
  rfl

theorem total_eq_sum {log : List Chunk} {calls : Nat} (known : ∀ c ∈ log, c.call < calls) :
    total log = ∑ id ∈ Finset.range calls, progress log id := by
  induction log using List.reverseRecOn with
  | nil => exact (Finset.sum_eq_zero fun _ _ => rfl).symm
  | append_singleton log c ih =>
    have last : c.call ∈ Finset.range calls := Finset.mem_range.mpr (known c (by simp))
    rw [total_concat, ih (fun d mem => known d (mem_append_left _ mem))]
    simp only [progress_concat, Finset.sum_add_distrib]
    rw [Finset.sum_ite_eq, if_pos last]

/-- A statement about each element of a list and those before it. -/
theorem forall_split_concat {A : Type} {P : List A → A → Prop} {list : List A} {last : A}
    (before : ∀ pre a post, list = pre ++ a :: post → P pre a) (here : P list last) :
    ∀ pre a post, list ++ [last] = pre ++ a :: post → P pre a := by
  intro pre a post split
  rcases eq_nil_or_concat post with rfl | ⟨init, b, rfl⟩
  · obtain ⟨rfl, same⟩ := append_inj' split rfl
    cases same
    exact here
  · rw [concat_eq_append, ← cons_append, ← append_assoc] at split
    exact before pre a init (append_inj' split rfl).1

section File

variable {sb : Superblock} {out : Outside} {s t : State} {k : Nat}

/-- A file is not larger than the disk. -/
theorem Inv.size_le_disk (inv : Inv sb s) (opened : Open s k) :
    (s.inode k).size ≤ sb.size * BSIZE := by
  have count : ((s.inode k).size + (BSIZE - 1)) / BSIZE ≤ sb.size := by
    have inside : ∀ bn < ((s.inode k).size + (BSIZE - 1)) / BSIZE,
        bn < MAXFILE ∧ fileBlock sb s.disk (place (s.inode k).inum bn) ≠ 0 := by
      intro bn small
      apply inv.full _ (inv.loaded k opened).1
      rw [← inv.size_eq opened]
      simp only [BSIZE] at small ⊢
      omega
    have injective := Finset.card_le_card_of_injOn
      (s := Finset.range (((s.inode k).size + (BSIZE - 1)) / BSIZE)) (t := Finset.range sb.size)
      (fun bn => fileBlock sb s.disk (place (s.inode k).inum bn)) ?_ ?_
    · simpa only [Finset.card_range] using injective
    · intro bn mem
      obtain ⟨small, present⟩ := inside bn (Finset.mem_range.mp mem)
      exact Finset.mem_coe.mpr (Finset.mem_range.mpr
        (inv.owns.data _ (place_valid _ small).1 present).2)
    · intro bn mem bm memM same
      obtain ⟨small, present⟩ := inside bn (Finset.mem_range.mp mem)
      obtain ⟨smallM, _⟩ := inside bm (Finset.mem_range.mp memM)
      have place :=
        inv.owns.exclusive _ _ (place_valid _ small).1 (place_valid _ smallM).1 present same
      exact (place_inj small smallM place).2
  simp only [BSIZE] at count ⊢
  omega

/-- One turn puts its bytes at `f->off`, unless they would go beyond the largest file. -/
theorem filewriteTurn_ends {src : Nat → UInt8} {n off i after : Nat} {last : Bool} {r : Option Nat}
    (inv : Inv sb s) (opened : Open s k) (device : (s.inode k).type ≠ T_DEV) (more : i < n)
    (offset : off ≤ (s.inode k).size)
    (returned : filewriteTurn sb out src n k last s off i = .ok (t, after, r)) :
    (∃ n1, 0 < n1 ∧ n1 ≤ n - i ∧ n1 ≤ MAXCHUNK ∧ r = some n1 ∧ after = off + n1 ∧
      Rewritten sb k s t (overlay (contents sb s.disk (s.inode k).inum) off (stretch src i n1))) ∨
    r = none ∧ after = off ∧ Rewritten sb k s t (contents sb s.disk (s.inode k).inum) ∧
      MAXFILE * BSIZE < off + MAXCHUNK := by
  have large := inv.size_le opened
  unfold filewriteTurn at returned
  rw [ilock_of_open opened] at returned
  generalize chunk : (if n - i > MAXCHUNK then MAXCHUNK else n - i) = n1 at returned
  obtain ⟨positive, fits⟩ := chunk_size chunk more
  have short : n1 ≤ MAXCHUNK := by
    rw [← chunk]
    split <;> omega
  obtain ⟨_, same, returned⟩ := bind_eq_ok.mp returned
  cases same
  obtain ⟨⟨u, w⟩, wrote, returned⟩ := bind_eq_ok.mp returned
  dsimp only at returned
  by_cases bound : off + n1 ≤ MAXFILE * BSIZE
  · obtain ⟨rfl, written⟩ := (chunk_ends inv opened device src i offset bound).of_ok wrote
    dsimp only at returned
    rw [if_neg (not_not_intro rfl)] at returned
    cases returned
    refine .inl ⟨n1, positive, fits, short, rfl, rfl, ?_⟩
    split
    · exact written.endOp
    · exact written
  · have refused : writei sb out.devsw s k (fun j => src (i + j)) off n1 = .ok (s, none) := by
      simp only [MAXFILE, NDIRECT, NINDIRECT, NDOUINDIRECT, NTRIINDIRECT, BSIZE, MAXCHUNK,
        MAXOPBLOCKS] at large bound short
      unfold writei
      dsimp only
      rw [if_neg device, if_neg (by omega), if_pos]
      simp only [MAXFILE, NDIRECT, NINDIRECT, NDOUINDIRECT, NTRIINDIRECT, BSIZE]
      omega
    rw [refused] at wrote
    cases wrote
    cases returned
    refine .inr ⟨rfl, rfl, ?_, by omega⟩
    split
    · exact (Rewritten.refl inv k).endOp
    · exact Rewritten.refl inv k

end File

/-- What holds of the calls: those that have not returned stand where their chunks end. -/
structure Numbered (s : Shared) : Prop where
  known : ∀ c ∈ s.log, c.call < s.calls
  active : ∀ w c, s.call w = some c → c.id < s.calls ∧ c.i ≤ c.n ∧ c.i = progress s.log c.id ∧
    s.returned c.id = none ∧ ∀ d ∈ s.log, d.writer = w → d.call ≤ c.id
  distinct : ∀ v w c d, s.call v = some c → s.call w = some d → c.id = d.id → v = w
  ended : ∀ id n, s.returned id = some (some n) → n = progress s.log id
  fresh : ∀ id, s.calls ≤ id → s.returned id = none

section Calls

variable {s : Shared} {w n r off : Nat} {c : Call} {bytes : List UInt8}

theorem entry_cases {A : Type} {f : Nat → Option A} {x : Option A} {v w : Nat} {d : A}
    (entry : update f w x v = some d) : v = w ∧ x = some d ∨ v ≠ w ∧ f v = some d := by
  by_cases same : v = w
  · rw [same, update_self] at entry
    exact .inl ⟨same, entry⟩
  · rw [update_of_ne same] at entry
    exact .inr ⟨same, entry⟩

section

variable (numbered : Numbered s)
include numbered

theorem Numbered.write :
    Numbered { s with call := update s.call w (some ⟨s.calls, n, 0⟩), calls := s.calls + 1 } := by
  refine ⟨?_, ?_, ?_, numbered.ended, fun id large => numbered.fresh id (Nat.le_of_succ_le large)⟩
  · exact fun d mem => Nat.lt_succ_of_lt (numbered.known d mem)
  · intro v d called
    rcases entry_cases called with ⟨_, new⟩ | ⟨_, old⟩
    · cases new
      refine ⟨Nat.lt_succ_self _, Nat.zero_le _, ?_, numbered.fresh _ (Nat.le_refl _), ?_⟩
      · exact (progress_other fun d mem => Nat.ne_of_lt (numbered.known d mem)).symm
      · exact fun d mem _ => Nat.le_of_lt (numbered.known d mem)
    · obtain ⟨bound, rest⟩ := numbered.active v d old
      exact ⟨Nat.lt_succ_of_lt bound, rest⟩
  · -- the number of the new call is not in use
    intro u v d e calledU calledV same
    rcases entry_cases calledU with ⟨hereU, newU⟩ | ⟨_, oldU⟩ <;>
      rcases entry_cases calledV with ⟨hereV, newV⟩ | ⟨_, oldV⟩
    · rw [hereU, hereV]
    · cases newU
      exact absurd same.symm (Nat.ne_of_lt (numbered.active v e oldV).1)
    · cases newV
      exact absurd same (Nat.ne_of_lt (numbered.active u d oldU).1)
    · exact numbered.distinct u v d e oldU oldV same

theorem Numbered.finish (called : s.call w = some c) : Numbered (s.finish w c) := by
  obtain ⟨bound, _, stands, _⟩ := numbered.active w c called
  have others : ∀ v d, (s.finish w c).call v = some d → v ≠ w ∧ s.call v = some d := by
    intro v d calledV
    rcases entry_cases calledV with ⟨_, none⟩ | old
    · cases none
    · exact old
  refine ⟨numbered.known, ?_, ?_, ?_, ?_⟩
  · intro v d calledV
    obtain ⟨other, before⟩ := others v d calledV
    obtain ⟨boundD, limit, place, pending, order⟩ := numbered.active v d before
    refine ⟨boundD, limit, place, ?_, order⟩
    show update s.returned c.id _ d.id = none
    rw [update_of_ne (fun same => other (numbered.distinct v w d c before called same))]
    exact pending
  · intro u v d e calledU calledV same
    exact numbered.distinct u v d e (others u d calledU).2 (others v e calledV).2 same
  · intro id m returned
    rcases entry_cases returned with ⟨same, entry⟩ | ⟨_, old⟩
    · obtain ⟨whole, value⟩ := Option.ite_none_right_eq_some.mp (Option.some.inj entry)
      cases value
      rw [same, ← whole]
      exact stands
    · exact numbered.ended id m old
  · intro id large
    have other : id ≠ c.id := fun same => absurd large (Nat.not_le_of_lt (same ▸ bound))
    show update s.returned c.id _ id = none
    rw [update_of_ne other]
    exact numbered.fresh id large

theorem Numbered.chunk (called : s.call w = some c) (fits : c.i + bytes.length ≤ c.n) :
    Numbered { s with
      call := update s.call w (some { c with i := c.i + bytes.length })
      log := s.log ++ [⟨w, c.id, c.i, off, bytes⟩] } := by
  obtain ⟨bound, _, stands, pending, order⟩ := numbered.active w c called
  have others : ∀ v d, v ≠ w → s.call v = some d → c.id ≠ d.id :=
    fun v d other before same => other (numbered.distinct v w d c before called same.symm)
  refine ⟨?_, ?_, ?_, ?_, numbered.fresh⟩
  · intro d mem
    rcases mem_append.mp mem with old | new
    · exact numbered.known d old
    · cases mem_singleton.mp new
      exact bound
  · intro v d calledV
    rcases entry_cases calledV with ⟨same, new⟩ | ⟨other, old⟩
    · cases new
      refine ⟨bound, fits, ?_, pending, ?_⟩
      · rw [progress_concat, if_pos rfl, ← stands]
      · intro e mem mine
        rcases mem_append.mp mem with old | new
        · exact order e old (mine.trans same)
        · cases mem_singleton.mp new
          exact Nat.le_refl _
    · obtain ⟨boundD, limit, place, pendingD, orderD⟩ := numbered.active v d old
      refine ⟨boundD, limit, ?_, pendingD, ?_⟩
      · rw [progress_concat, if_neg (others v d other old), Nat.add_zero]
        exact place
      · intro e mem mine
        rcases mem_append.mp mem with old | new
        · exact orderD e old mine
        · cases mem_singleton.mp new
          exact absurd mine.symm other
  · -- the numbers are those of before
    have number : ∀ x y, update s.call w (some { c with i := c.i + bytes.length }) x = some y →
        ∃ z, s.call x = some z ∧ z.id = y.id := by
      intro x y entry
      rcases entry_cases entry with ⟨here, new⟩ | ⟨_, old⟩
      · cases new
        exact ⟨c, here ▸ called, rfl⟩
      · exact ⟨y, old, rfl⟩
    intro u v d e calledU calledV same
    obtain ⟨d', beforeU, sameU⟩ := number u d calledU
    obtain ⟨e', beforeV, sameV⟩ := number v e calledV
    exact numbered.distinct u v d' e' beforeU beforeV (by rw [sameU, sameV, same])
  · intro id m returned
    have other : c.id ≠ id := by
      rintro rfl
      exact absurd (pending.symm.trans returned) (by simp)
    rw [progress_concat, if_neg other, Nat.add_zero]
    exact numbered.ended id m returned

theorem Numbered.files (fs : State) (f : File) : Numbered { s with fs := fs, file := f } :=
  ⟨numbered.known, numbered.active, numbered.distinct, numbered.ended, numbered.fresh⟩

end

end Calls

/-- The chunks are in the file one behind the other from `f.off` on. -/
structure InTurn (sb : Superblock) (before : State) (f : File) (s : Shared) : Prop where
  file : s.file = { f with off := f.off + total s.log }
  fs :
    Rewritten sb f.ip before s.fs (overlay (contents sb before.disk (before.inode f.ip).inum) f.off
    (s.log.flatMap Chunk.bytes))
  places : ∀ pre c post, s.log = pre ++ c :: post → c.off = f.off + total pre ∧
    c.i = progress pre c.call ∧ 0 < c.bytes.length ∧ c.bytes.length ≤ MAXCHUNK
  order : s.log.Pairwise fun c d => c.writer = d.writer → c.call ≤ d.call
  numbered : Numbered s
  -- the largest file does not fit on the disk
  never : sb.size ≤ FSSIZE → ∀ id, s.returned id ≠ some none

section Run

variable {sb : Superblock} {out : Outside} {before : State} {f : File} {s t : Shared}

theorem inTurn_start (inv : Inv sb before) (opened : Open before f.ip)
    (offset : f.off ≤ (before.inode f.ip).size) : InTurn sb before f (Shared.start before f) := by
  refine ⟨rfl, ?_, fun pre c post split => ?_, List.Pairwise.nil, ?_, fun _ _ other =>
      nomatch other⟩
  · have same := Overlay.overlay_nil (offset_le_length inv opened offset)
    show Rewritten sb f.ip before before (overlay _ f.off [])
    rw [same]
    exact Rewritten.refl inv f.ip
  · exact absurd split (by simp [Shared.start])
  · exact ⟨fun _ mem => absurd mem (by simp [Shared.start]), fun _ _ called => (nomatch called),
      fun _ _ _ _ called => (nomatch called), fun _ _ ended => (nomatch ended), fun _ _ => rfl⟩

theorem InTurn.offset (inTurn : InTurn sb before f s) (inv : Inv sb before)
    (opened : Open before f.ip) (offset : f.off ≤ (before.inode f.ip).size) :
    s.file.off ≤ (s.fs.inode f.ip).size := by
  have reaches := inTurn.fs.offset opened inv offset
  rw [length_bytes] at reaches
  rw [inTurn.file]
  exact reaches

theorem InTurn.finish {w : Nat} {c : Call} (inTurn : InTurn sb before f s)
    (called : s.call w = some c) (whole : sb.size ≤ FSSIZE → c.i = c.n) :
    InTurn sb before f (s.finish w c) := by
  refine ⟨inTurn.file, inTurn.fs, inTurn.places, inTurn.order, inTurn.numbered.finish called, ?_⟩
  intro small id failed
  rcases entry_cases failed with ⟨_, new⟩ | ⟨_, old⟩
  · rw [if_pos (whole small)] at new
    cases new
  · exact inTurn.never small id old

theorem InTurn.chunk {w : Nat} {c : Call} {fs : State} {bytes : List UInt8}
    (inTurn : InTurn sb before f s) (inv : Inv sb before) (opened : Open before f.ip)
    (offset : f.off ≤ (before.inode f.ip).size) (called : s.call w = some c)
    (positive : 0 < bytes.length) (fits : c.i + bytes.length ≤ c.n)
    (short : bytes.length ≤ MAXCHUNK) (wrote : Rewritten sb f.ip s.fs fs
      (overlay (contents sb s.fs.disk (s.fs.inode f.ip).inum) s.file.off bytes)) :
    InTurn sb before f { s with
      fs := fs
      file := { s.file with off := s.file.off + bytes.length }
      call := update s.call w (some { c with i := c.i + bytes.length })
      log := s.log ++ [⟨w, c.id, c.i, s.file.off, bytes⟩] } := by
  obtain ⟨_, _, stands, _, order⟩ := inTurn.numbered.active w c called
  have place : s.file.off = f.off + total s.log := by rw [inTurn.file]
  refine ⟨?_, ?_, ?_, ?_, ?_, inTurn.never⟩
  · show { s.file with off := s.file.off + bytes.length } = _
    rw [inTurn.file, total_concat]
    simp only [Nat.add_assoc]
  · have joined := Overlay.overlay_append (offset_le_length inv opened offset)
      (s.log.flatMap Chunk.bytes) bytes
    rw [inTurn.fs.contents_eq, place, ← length_bytes, joined] at wrote
    rw [flatMap_append, flatMap_singleton]
    exact inTurn.fs.trans wrote
  · exact forall_split_concat inTurn.places ⟨place, stands, positive, short⟩
  · rw [pairwise_append]
    refine ⟨inTurn.order, pairwise_singleton _ _, ?_⟩
    intro d mem e last mine
    cases mem_singleton.mp last
    exact order d mem mine
  · exact (inTurn.numbered.chunk called fits).files _ _

section

variable (inv : Inv sb before) (opened : Open before f.ip)
    (device : (before.inode f.ip).type ≠ T_DEV) (offset : f.off ≤ (before.inode f.ip).size)
    (inTurn : InTurn sb before f s)
include inv opened device offset inTurn

/-- One turn of the loop of `filewrite`, by whichever call. -/
theorem inTurn_turn {w : Nat} {src : Nat → UInt8} {last : Bool}
    (taken : s.step sb out (.turn w src last) = some t) : InTurn sb before f t := by
  unfold Shared.step at taken
  dsimp only at taken
  cases called : s.call w with
  | none =>
    rw [called] at taken
    cases taken
  | some c =>
    rw [called] at taken
    dsimp only at taken
    obtain ⟨_, limit, stands, _, order⟩ := inTurn.numbered.active w c called
    split at taken
    · rename_i more
      obtain ⟨⟨fs, off, r⟩, returned, same⟩ := Option.map_eq_some_iff.mp taken
      rw [toOption_eq_some] at returned
      have ip : s.file.ip = f.ip := by rw [inTurn.file]
      rw [ip] at returned
      have within := inTurn.offset inv opened offset
      have first := inTurn.fs
      rcases filewriteTurn_ends first.inv (first.opened opened) (first.type ▸ device) more within
        returned with ⟨n1, positive, fits, short, rfl, rfl, wrote⟩ | ⟨rfl, rfl, kept, large⟩
      · cases same
        have length := length_stretch src c.i n1
        have chunk := inTurn.chunk inv opened offset called (length.symm ▸ positive)
          (by rw [length]; omega) (length.symm ▸ short) wrote
        rw [length] at chunk
        exact chunk
      · cases same
        have moved :
            InTurn sb before f { s with fs := fs, file := { s.file with off := s.file.off } } := by
          rw [first.contents_eq] at kept
          exact ⟨inTurn.file, first.trans kept, inTurn.places, inTurn.order,
            inTurn.numbered.files _ _, inTurn.never⟩
        apply moved.finish called
        intro small
        have bound := Inv.size_le_disk first.inv (first.opened opened)
        simp only [MAXFILE, NDIRECT, NINDIRECT, NDOUINDIRECT, NTRIINDIRECT, BSIZE, MAXCHUNK,
          MAXOPBLOCKS, FSSIZE] at large bound small
        omega
    · cases taken
      exact inTurn.finish called (fun _ => by omega)

theorem inTurn_step {event : Event} (taken : s.step sb out event = some t) :
    InTurn sb before f t := by
  cases event with
  | write w n =>
    obtain ⟨_, same⟩ := Option.ite_none_right_eq_some.mp taken
    cases same
    exact ⟨inTurn.file, inTurn.fs, inTurn.places, inTurn.order, inTurn.numbered.write, inTurn.never⟩
  | turn w src last => exact inTurn_turn inv opened device offset inTurn taken

end

/-- Any number of writers share `f`. In every state, each chunk starts where the one before it ends,
the chunks of a call have its bytes in order and come before those of the writer's later calls, the
file has exactly these bytes from the first offset on, and `f->off` is behind them. A call that
returned `n` has written `n` bytes; on a disk of `FSSIZE` blocks none fails, so when all have
returned `f->off` has advanced by what they returned. -/
theorem shared_writes_in_turn (sb : Superblock) (out : Outside) (before : State) (f : File)
    (inv : Inv sb before) (opened : Open before f.ip) (device : (before.inode f.ip).type ≠ T_DEV)
    (offset : f.off ≤ (before.inode f.ip).size) (events : List Event) (s : Shared)
    (run : Run.exec (fun s event => s.step sb out event) (Shared.start before f) events = some s) :
    (∀ pre c post, s.log = pre ++ c :: post → c.off = f.off + total pre ∧
      c.i = progress pre c.call ∧ 0 < c.bytes.length ∧ c.bytes.length ≤ MAXCHUNK) ∧
    (s.log.Pairwise fun c d => c.writer = d.writer → c.call ≤ d.call) ∧
    contents sb s.fs.disk (before.inode f.ip).inum =
      overlay (contents sb before.disk (before.inode f.ip).inum) f.off (s.log.flatMap Chunk.bytes) ∧
    s.file.off = f.off + total s.log ∧
    (∀ id n, s.returned id = some (some n) → n = progress s.log id) ∧
    (sb.size ≤ FSSIZE → (∀ id, s.returned id ≠ some none) ∧
      ((∀ id < s.calls, s.returned id ≠ none) →
        s.file.off = f.off + ∑ id ∈ Finset.range s.calls, ((s.returned id).join.getD 0))) := by
  have inTurn : InTurn sb before f s := Run.exec_invariant (InTurn sb before f)
    (fun _ _ _ inTurn _ taken => inTurn_step inv opened device offset inTurn taken)
    (inTurn_start inv opened offset) (Run.steps_of_forall (fun _ _ => trivial) _ events) run
  have advanced : s.file.off = f.off + total s.log := by rw [inTurn.file]
  refine ⟨inTurn.places, inTurn.order, inTurn.fs.here, advanced, inTurn.numbered.ended,
    fun small => ⟨inTurn.never small, fun all => ?_⟩⟩
  rw [advanced, total_eq_sum inTurn.numbered.known]
  congr 1
  apply Finset.sum_congr rfl
  intro id mem
  cases returned : s.returned id with
  | none => exact absurd returned (all id (Finset.mem_range.mp mem))
  | some value =>
    cases value with
    | none => exact absurd returned (inTurn.never small id)
    | some n => exact (inTurn.numbered.ended id n returned).symm

/-- Two writers on the empty file of `smallState`, one turn each. -/
def twoWriters : List Event :=
  [.write 0 2, .write 1 1, .turn 1 (fun _ => 8) false, .turn 0 (fun _ => 7) true,
    .turn 0 (fun _ => 7) true, .turn 1 (fun _ => 8) true]

theorem shared_writes_in_turn_small :
    ∃ s, Run.exec (fun s event => s.step smallSb noOutside event)
        (Shared.start smallState smallFile) twoWriters = some s ∧
      s.log.flatMap Chunk.bytes = [8, 7, 7] ∧
      contents smallSb s.fs.disk 1 =
        overlay (contents smallSb smallState.disk 1) 0 (s.log.flatMap Chunk.bytes) := by
  have run : (Run.exec (fun s event => s.step smallSb noOutside event)
      (Shared.start smallState smallFile) twoWriters).map (fun s => s.log.flatMap Chunk.bytes) =
      some [8, 7, 7] := by decide +kernel
  obtain ⟨s, run, bytes⟩ := Option.map_eq_some_iff.mp run
  have regular := smallFile_regular
  refine ⟨s, run, bytes, ?_⟩
  exact (shared_writes_in_turn smallSb noOutside smallState smallFile smallState_inv regular.opened
    (by rw [regular.regular]; decide) (Nat.zero_le _) twoWriters s run).2.2.1

end Run

end Xv6.Fs.Sharing
