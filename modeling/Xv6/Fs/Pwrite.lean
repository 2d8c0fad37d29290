import Xv6.Fs.File

/- `filewrite` advances its offset from chunk to chunk and `filepwrite` does not. What each of
them leaves in the file, and when the two agree. -/
namespace Xv6.Fs

open Outcome Overlay List

variable {sb : Superblock} {out : Outside} {s t u : State} {k : Nat}
    {off n1 n i q : Nat} {bytes file : List UInt8}

/-- `t` is `s` with other contents of the file in slot `k`. -/
structure Rewritten (sb : Superblock) (k : Nat) (s t : State) (file : List UInt8) : Prop where
  inv : Inv sb t
  slots : ∀ j, j ≠ k → t.inode j = s.inode j
  slot : ∃ size addrs, t.inode k = { s.inode k with size := size, addrs := addrs }
  live : ∀ inum, Live sb t.disk inum ↔ Live sb s.disk inum
  here : contents sb t.disk (s.inode k).inum = file
  others : ∀ inum, inum ≠ (s.inode k).inum → Live sb s.disk inum →
    contents sb t.disk inum = contents sb s.disk inum

theorem Stored.rewritten (stored : Stored sb k off bytes s t) :
    Rewritten sb k s t (overlay (contents sb s.disk (s.inode k).inum) off bytes) :=
  ⟨stored.inv, stored.slots, stored.slot, stored.live, stored.here, stored.others⟩

theorem Rewritten.refl (inv : Inv sb s) (k : Nat) :
    Rewritten sb k s s (contents sb s.disk (s.inode k).inum) :=
  ⟨inv, fun _ _ => rfl, ⟨_, _, rfl⟩, fun _ => Iff.rfl, rfl, fun _ _ _ => rfl⟩

section

variable (first : Rewritten sb k s t file)
include first

theorem Rewritten.inum : (t.inode k).inum = (s.inode k).inum := by
  obtain ⟨size, addrs, slot⟩ := first.slot
  rw [slot]

theorem Rewritten.type : (t.inode k).type = (s.inode k).type := by
  obtain ⟨size, addrs, slot⟩ := first.slot
  rw [slot]

theorem Rewritten.opened (opened : Open s k) : Open t k := by
  obtain ⟨size, addrs, slot⟩ := first.slot
  unfold Open at opened ⊢
  rw [slot]
  exact opened

theorem Rewritten.trans {last : List UInt8} (second : Rewritten sb k t u last) :
    Rewritten sb k s u last := by
  have inum := first.inum
  refine ⟨second.inv, ?_, ?_, ?_, ?_, ?_⟩
  · intro j other
    rw [second.slots j other, first.slots j other]
  · obtain ⟨_, _, one⟩ := first.slot
    obtain ⟨size, addrs, two⟩ := second.slot
    exact ⟨size, addrs, by rw [two, one]⟩
  · exact fun i => (second.live i).trans (first.live i)
  · rw [← inum]
    exact second.here
  · intro i other alive
    rw [second.others i (inum ▸ other) ((first.live i).mpr alive), first.others i other alive]

theorem Rewritten.endOp : Rewritten sb k s (endOp sb t) file := by
  have disk : (Fs.endOp sb t).disk = t.disk := by unfold Fs.endOp; split <;> rfl
  have inode : (Fs.endOp sb t).inode = t.inode := by unfold Fs.endOp; split <;> rfl
  refine ⟨first.inv.congr disk fun j _ => congrFun inode j, ?_, ?_, ?_, ?_, ?_⟩
  · rw [inode]; exact first.slots
  · rw [inode]; exact first.slot
  · rw [disk]; exact first.live
  · rw [disk]; exact first.here
  · rw [disk]; exact first.others

end

/-- The bytes `src[i..i+n)`. -/
def stretch (src : Nat → UInt8) (i n : Nat) : List UInt8 := (List.range n).map fun j => src (i + j)

section

variable (src : Nat → UInt8)
include src

@[simp] theorem length_stretch (i n : Nat) : (stretch src i n).length = n := by
  simp only [stretch, length_map, length_range]

@[simp] theorem stretch_zero (i : Nat) : stretch src i 0 = [] := rfl

theorem stretch_append (i m n : Nat) :
    stretch src i (m + n) = stretch src i m ++ stretch src (i + m) n := by
  simp only [stretch, range_add, map_append, map_map, Function.comp_def, Nat.add_assoc]

theorem stretch_getElem? (i n j : Nat) :
    (stretch src i n)[j]? = if j < n then some (src (i + j)) else none := by
  unfold stretch
  rw [getElem?_map]
  by_cases inside : j < n
  · rw [getElem?_range inside, if_pos inside]
    rfl
  · rw [getElem?_eq_none (by rw [length_range]; omega), if_neg inside]
    rfl

end

theorem ilock_of_open (opened : Open s k) : ilock sb s k = .ok s := by
  unfold ilock
  rw [if_pos opened.2.2]

/-- One transaction of either loop. -/
theorem chunk_ends (inv : Inv sb s) (opened : Open s k) (file : (s.inode k).type ≠ T_DEV)
    (src : Nat → UInt8) (i : Nat) (offset : off ≤ (s.inode k).size)
    (bound : off + n1 ≤ MAXFILE * BSIZE) :
    Ends Panic.Full (fun r => r.2 = some n1 ∧ Rewritten sb k s r.1
        (overlay (contents sb s.disk (s.inode k).inum) off (stretch src i n1)))
      (writei sb out.devsw s k (fun j => src (i + j)) off n1) :=
  (writei_ends inv opened file offset bound).mono fun _ post => ⟨post.1, post.2.rewritten⟩

theorem Rewritten.offset (opened : Open s k) (inv : Inv sb s)
    (first : Rewritten sb k s t (overlay (contents sb s.disk (s.inode k).inum) off bytes))
    (offset : off ≤ (s.inode k).size) : off + bytes.length ≤ (t.inode k).size := by
  have total := congrArg List.length first.here
  have length := offset_le_length inv opened offset
  rw [contents_length, Overlay.length_overlay length, ← first.inum,
    ← first.inv.size_eq (first.opened opened)] at total
  omega

theorem Rewritten.contents_eq (first : Rewritten sb k s t file) :
    contents sb t.disk (t.inode k).inum = file := by
  rw [first.inum, first.here]

theorem chunk_size (chunk : (if n - i > MAXCHUNK then MAXCHUNK else n - i) = n1) (more : i < n) :
    0 < n1 ∧ n1 ≤ n - i := by
  simp only [MAXCHUNK, MAXOPBLOCKS] at chunk
  split at chunk <;> omega

theorem stretch_chunk (src : Nat → UInt8)
    (chunk : (if n - i > MAXCHUNK then MAXCHUNK else n - i) = n1) (more : i < n) :
    (stretch src i (n - i)).take MAXCHUNK = stretch src i n1 ∧
      (stretch src i (n - i)).drop MAXCHUNK = stretch src (i + n1) (n - (i + n1)) := by
  obtain ⟨_, fits⟩ := chunk_size chunk more
  have parts := stretch_append src i n1 (n - (i + n1))
  rw [show n1 + (n - (i + n1)) = n - i by omega] at parts
  split at chunk
  · rw [parts, chunk]
    exact ⟨take_left' (length_stretch _ _ _), drop_left' (length_stretch _ _ _)⟩
  have short : (stretch src i (n - i)).length ≤ MAXCHUNK := by
    rw [length_stretch]
    omega
  rw [take_of_length_le short, drop_of_length_le short, chunk,
    show n - (i + n1) = 0 by omega, stretch_zero]
  exact ⟨rfl, rfl⟩

/-- `filewrite` writes its chunks one behind the other. -/
theorem filewriteLoop_ends (src : Nat → UInt8) (n fuel : Nat) (inv : Inv sb s) (opened : Open s k)
    (file : (s.inode k).type ≠ T_DEV) (enough : n - i ≤ fuel) (start : i ≤ n)
    (offset : off ≤ (s.inode k).size) (bound : off + (n - i) ≤ MAXFILE * BSIZE) :
    Ends Panic.Full (fun r => r.2 = (off + (n - i), n) ∧ Rewritten sb k s r.1
        (overlay (contents sb s.disk (s.inode k).inum) off (stretch src i (n - i))))
      (filewriteLoop sb out src n k fuel s off i) := by
  induction fuel generalizing s off i with
  | zero =>
    obtain rfl : i = n := by omega
    rw [Nat.sub_self, stretch_zero, Overlay.overlay_nil (offset_le_length inv opened offset)]
    exact ⟨rfl, Rewritten.refl inv k⟩
  | succ fuel ih =>
    unfold filewriteLoop
    split
    · rename_i more
      rw [ilock_of_open opened]
      generalize chunk : (if n - i > MAXCHUNK then MAXCHUNK else n - i) = n1
      obtain ⟨pos, fits⟩ := chunk_size chunk more
      refine (chunk_ends inv opened file src i offset (by omega)).bind ?_
      rintro ⟨t, r⟩ ⟨returned, first⟩
      dsimp only at returned first ⊢
      subst returned
      simp only [ne_eq, not_true_eq_false, if_false, Option.getD_some]
      have after := first.endOp
      have reaches := after.offset opened inv offset
      rw [length_stretch] at reaches
      refine (ih after.inv (after.opened opened) (after.type ▸ file) (by omega) (by omega) reaches
        (by omega)).mono ?_
      rintro ⟨u, last⟩ ⟨ends, rest⟩
      dsimp only at ends rest ⊢
      have joined := Overlay.overlay_append (offset_le_length inv opened offset)
        (stretch src i n1) (stretch src (i + n1) (n - (i + n1)))
      rw [length_stretch, ← stretch_append, show n1 + (n - (i + n1)) = n - i by omega] at joined
      rw [after.contents_eq, joined] at rest
      refine ⟨?_, after.trans rest⟩
      rw [ends, show off + n1 + (n - (i + n1)) = off + (n - i) by omega]
    · obtain rfl : i = n := by omega
      rw [Nat.sub_self, stretch_zero, Overlay.overlay_nil (offset_le_length inv opened offset)]
      exact ⟨rfl, Rewritten.refl inv k⟩

/-- All chunks written at one offset. -/
def pwrites (off : Nat) : Nat → List UInt8 → List UInt8 → List UInt8
  | 0, file, _ => file
  | fuel + 1, file, bytes =>
    if bytes = [] then file
    else pwrites off fuel (overlay file off (bytes.take MAXCHUNK)) (bytes.drop MAXCHUNK)

theorem filepwriteLoop_ends (src : Nat → UInt8) (n off fuel : Nat) (inv : Inv sb s)
    (opened : Open s k) (file : (s.inode k).type ≠ T_DEV) (enough : n - i ≤ fuel) (start : i ≤ n)
    (offset : off ≤ (s.inode k).size) (bound : off + (n - i) ≤ MAXFILE * BSIZE) :
    Ends Panic.Full (fun r => r.2 = n ∧ Rewritten sb k s r.1
        (pwrites off fuel (contents sb s.disk (s.inode k).inum) (stretch src i (n - i))))
      (filepwriteLoop sb out src n k off fuel s i) := by
  induction fuel generalizing s i with
  | zero =>
    obtain rfl : i = n := by omega
    exact ⟨rfl, Rewritten.refl inv k⟩
  | succ fuel ih =>
    unfold filepwriteLoop
    split
    · rename_i more
      rw [ilock_of_open opened]
      generalize chunk : (if n - i > MAXCHUNK then MAXCHUNK else n - i) = n1
      obtain ⟨pos, fits⟩ := chunk_size chunk more
      refine (chunk_ends inv opened file src i offset (by omega)).bind ?_
      rintro ⟨t, r⟩ ⟨returned, first⟩
      dsimp only at returned first ⊢
      subst returned
      simp only [ne_eq, not_true_eq_false, if_false]
      have after := first.endOp
      have reaches := after.offset opened inv offset
      rw [length_stretch] at reaches
      refine (ih after.inv (after.opened opened) (after.type ▸ file) (by omega) (by omega)
        (by omega) (by omega)).mono ?_
      rintro ⟨u, last⟩ ⟨ends, rest⟩
      dsimp only at ends rest ⊢
      have nonempty : stretch src i (n - i) ≠ [] := by
        rw [Ne, ← length_eq_zero_iff, length_stretch]
        omega
      obtain ⟨taken, dropped⟩ := stretch_chunk src chunk more
      rw [after.contents_eq] at rest
      rw [pwrites, if_neg nonempty, taken, dropped]
      exact ⟨ends, after.trans rest⟩
    · obtain rfl : i = n := by omega
      rw [Nat.sub_self, stretch_zero, pwrites, if_pos rfl]
      exact ⟨rfl, Rewritten.refl inv k⟩

/-- The index in the buffer of the byte that `filepwrite` leaves at offset `q` of its window: the
last chunk is written last, and the one before it shows behind a short last chunk. -/
def lastWriter (n q : Nat) : Nat :=
  if q < n - MAXCHUNK * ((n - 1) / MAXCHUNK) then MAXCHUNK * ((n - 1) / MAXCHUNK) + q
  else MAXCHUNK * ((n - 1) / MAXCHUNK - 1) + q

theorem lastWriter_of_small (small : n ≤ MAXCHUNK) (inside : q < n) : lastWriter n q = q := by
  simp only [lastWriter, MAXCHUNK, MAXOPBLOCKS] at small ⊢
  split <;> omega

theorem lastWriter_succ (large : MAXCHUNK < n) (inside : q < min (n - MAXCHUNK) MAXCHUNK) :
    MAXCHUNK + lastWriter (n - MAXCHUNK) q = lastWriter n q := by
  simp only [lastWriter, MAXCHUNK, MAXOPBLOCKS] at large inside ⊢
  split <;> split <;> omega

theorem lastWriter_before (large : MAXCHUNK < n) (short : n - MAXCHUNK ≤ q)
    (inside : q < MAXCHUNK) :
    lastWriter n q = q := by
  simp only [lastWriter, MAXCHUNK, MAXOPBLOCKS] at large short inside ⊢
  split <;> omega

theorem pwrites_getElem? (off fuel p : Nat) (within : off ≤ file.length)
    (enough : bytes.length ≤ fuel) :
    (pwrites off fuel file bytes)[p]? =
      if off ≤ p ∧ p < off + min bytes.length MAXCHUNK
        then bytes[lastWriter bytes.length (p - off)]?
      else file[p]? := by
  induction fuel generalizing file bytes with
  | zero =>
    rw [if_neg (by omega)]
    rfl
  | succ fuel ih =>
    unfold pwrites
    split
    · rename_i empty
      rw [empty, if_neg (by simp only [length_nil]; omega)]
    have reaches : off ≤ (overlay file off (bytes.take MAXCHUNK)).length := by
      rw [Overlay.length_overlay within]
      omega
    have chunk : 0 < MAXCHUNK := by decide
    have nonempty : 0 < bytes.length := length_pos_iff.mpr (by assumption)
    rw [ih reaches (by rw [length_drop]; omega), length_drop,
      Overlay.getElem?_overlay within, length_take]
    by_cases window : off ≤ p ∧ p < off + min bytes.length MAXCHUNK
    · rw [if_pos window]
      by_cases again : p < off + min (bytes.length - MAXCHUNK) MAXCHUNK
      · rw [if_pos ⟨window.1, again⟩, getElem?_drop, lastWriter_succ (by omega) (by omega)]
      · rw [if_neg (by omega), if_pos (by omega), getElem?_take_of_lt (by omega)]
        by_cases large : MAXCHUNK < bytes.length
        · rw [lastWriter_before large (by omega) (by omega)]
        · rw [lastWriter_of_small (by omega) (by omega)]
    · rw [if_neg window, if_neg (by omega), if_neg (by omega)]

/-- The requests on which `filepwrite` does what `filewrite` does: those of one chunk, and those
whose bytes behind the first chunk are in the file already while the bytes that the last two
chunks leave in its place are those of the first chunk. -/
def PwriteAgrees (file : List UInt8) (off : Nat) (src : Nat → UInt8) (n : Nat) : Prop :=
  n ≤ MAXCHUNK ∨ (∀ q, MAXCHUNK ≤ q → q < n → file[off + q]? = some (src q)) ∧
    ∀ q < MAXCHUNK, src (lastWriter n q) = src q

theorem lastWriter_lt (pos : 0 < n) (inside : q < min n MAXCHUNK) : lastWriter n q < n := by
  simp only [lastWriter, MAXCHUNK, MAXOPBLOCKS] at inside ⊢
  split <;> omega

theorem pwrites_eq_overlay_iff (within : off ≤ file.length) (src : Nat → UInt8) (n : Nat) :
    pwrites off n file (stretch src 0 n) = overlay file off (stretch src 0 n) ↔
      PwriteAgrees file off src n := by
  have left := fun p => pwrites_getElem? off n p within (Nat.le_of_eq (length_stretch src 0 n))
  have right := fun p => Overlay.getElem?_overlay within (stretch src 0 n) p
  simp only [length_stretch, stretch_getElem?, Nat.zero_add] at left right
  constructor
  · intro same
    by_cases small : n ≤ MAXCHUNK
    · exact .inl small
    refine .inr ⟨fun q lower upper => ?_, fun q inside => ?_⟩
    · have here := congrArg (·[off + q]?) same
      rw [left, right, if_neg (by omega), if_pos (by omega), if_pos (by omega)] at here
      rw [here]
      congr 2
      omega
    · have here := congrArg (·[off + q]?) same
      rw [left, right, if_pos (by omega), Nat.add_sub_cancel_left,
        if_pos (lastWriter_lt (by omega) (by omega)), if_pos (by omega), if_pos (by omega)] at here
      exact Option.some.inj here
  · intro agrees
    apply ext_getElem?
    intro p
    rw [left, right]
    by_cases window : off ≤ p ∧ p < off + min n MAXCHUNK
    · rw [if_pos window, if_pos (lastWriter_lt (by omega) (by omega)), if_pos (by omega),
        if_pos (by omega)]
      rcases agrees with small | ⟨_, first⟩
      · rw [lastWriter_of_small small (by omega)]
      · rw [first _ (by omega)]
    · rw [if_neg window]
      by_cases written : off ≤ p ∧ p < off + n
      · rw [if_pos written, if_pos (by omega)]
        rcases agrees with small | ⟨behind, _⟩
        · omega
        · rw [← behind (p - off) (by omega) (by omega)]
          congr 1
          omega
      · rw [if_neg written]

/-- A regular file, open for reading and writing. -/
structure RegularFile (s : State) (f : File) : Prop where
  type : f.type = .inode
  readable : f.readable = true
  writable : f.writable = true
  opened : Open s f.ip
  regular : (s.inode f.ip).type = T_FILE

/-- What `write` at the given offset leaves: `n` is returned, `[off, off + n)` holds `src`, the
rest of the file and all other files are unchanged, and reading back gives `src`. -/
structure WritesAt (sb : Superblock) (out : Outside) (s : State) (f : File) (src : Nat → UInt8)
    (n off : Nat) (t : State) (r : Option Nat) : Prop where
  returned : r = some n
  here : contents sb t.disk (s.inode f.ip).inum =
    overlay (contents sb s.disk (s.inode f.ip).inum) off (stretch src 0 n)
  others : ∀ inum, inum ≠ (s.inode f.ip).inum → Live sb s.disk inum →
    contents sb t.disk inum = contents sb s.disk inum
  back : filepread sb out t f n off = .ok (t, f, some (stretch src 0 n))

theorem filepread_eq {f : File} (inv : Inv sb s) (regular : RegularFile s f)
    (offset : off ≤ (s.inode f.ip).size) (word : off + n < 2 ^ 32) :
    filepread sb out s f n off =
      .ok (s, f, some (((contents sb s.disk (s.inode f.ip).inum).drop off).take n)) := by
  have device : (s.inode f.ip).type ≠ T_DEV := by
    rw [regular.regular]
    decide
  unfold filepread
  rw [regular.readable, regular.type, ilock_of_open regular.opened]
  simp only [Bool.true_eq_false, if_false]
  dsimp only [bind, Except.bind]
  rw [readi_eq out.devsw inv regular.opened device offset word]

/-- The loop's result gives all of `WritesAt` as soon as the contents are right. -/
theorem Rewritten.writesAt {f : File} {src : Nat → UInt8} (inv : Inv sb s)
    (regular : RegularFile s f) (offset : off ≤ (s.inode f.ip).size)
    (bound : off + n ≤ MAXFILE * BSIZE) (first : Rewritten sb f.ip s t file)
    (same : file = overlay (contents sb s.disk (s.inode f.ip).inum) off (stretch src 0 n)) :
    WritesAt sb out s f src n off t (some n) := by
  subst same
  have limit : MAXFILE * BSIZE < 2 ^ 32 := by decide
  have later : RegularFile t f := ⟨regular.type, regular.readable, regular.writable,
    first.opened regular.opened, first.type.trans regular.regular⟩
  have reaches := first.offset regular.opened inv offset
  refine ⟨rfl, first.here, first.others, ?_⟩
  rw [filepread_eq first.inv later (by omega) (by omega), first.contents_eq]
  have back := Overlay.take_drop_overlay (offset_le_length inv regular.opened offset)
    (stretch src 0 n)
  rw [length_stretch] at back
  rw [back]

/-- `filewrite` at the same offset always does it. -/
theorem filewrite_ends {f : File} (inv : Inv sb s) (regular : RegularFile s f) (src : Nat → UInt8)
    (offset : f.off ≤ (s.inode f.ip).size) (bound : f.off + n ≤ MAXFILE * BSIZE) :
    Ends Panic.Full (fun r => r.2.1.off = f.off + n ∧ WritesAt sb out s f src n f.off r.1 r.2.2)
      (filewrite sb out s f src n) := by
  have device : (s.inode f.ip).type ≠ T_DEV := by
    rw [regular.regular]
    decide
  unfold filewrite
  rw [regular.writable, regular.type]
  simp only [Bool.true_eq_false, if_false]
  refine (filewriteLoop_ends src n n inv regular.opened device (by omega) (by omega) offset
    (by omega)).bind ?_
  rintro ⟨t, last, i⟩ ⟨ends, first⟩
  cases ends
  refine ⟨rfl, ?_⟩
  dsimp only
  rw [if_pos rfl]
  exact first.writesAt inv regular offset bound rfl

/-- Unless the disk or the log is full, `filepwrite` returns `n`, leaves `f->off` alone, and does
what `filewrite` at that offset does exactly for the requests of `PwriteAgrees`. -/
theorem filepwrite_agrees_iff {f : File} (inv : Inv sb s) (regular : RegularFile s f)
    (src : Nat → UInt8) {n off : Nat} (offset : off ≤ (s.inode f.ip).size)
    (bound : off + n ≤ MAXFILE * BSIZE) :
    Ends Panic.Full (fun r => r.2.1.off = off + n ∧
        WritesAt sb out s { f with off := off } src n off r.1 r.2.2)
      (filewrite sb out s { f with off := off } src n) ∧
    Ends Panic.Full (fun r => r.2 = (f, some n) ∧ (WritesAt sb out s f src n off r.1 r.2.2 ↔
          PwriteAgrees (contents sb s.disk (s.inode f.ip).inum) off src n))
      (filepwrite sb out s f src n off) := by
  have device : (s.inode f.ip).type ≠ T_DEV := by
    rw [regular.regular]
    decide
  have within := offset_le_length inv regular.opened offset
  have moved : RegularFile s { f with off := off } :=
    ⟨regular.type, regular.readable, regular.writable, regular.opened, regular.regular⟩
  refine ⟨filewrite_ends inv moved src offset bound, ?_⟩
  unfold filepwrite
  rw [regular.writable, regular.type]
  simp only [Bool.true_eq_false, if_false]
  refine (filepwriteLoop_ends src n off n inv regular.opened device (by omega) (by omega) offset
    (by omega)).bind ?_
  rintro ⟨t, i⟩ ⟨ends, first⟩
  dsimp only at ends first ⊢
  subst ends
  rw [if_pos rfl]
  refine ⟨rfl, ?_⟩
  rw [← pwrites_eq_overlay_iff within]
  constructor
  · intro writes
    rw [← writes.here, first.here, Nat.sub_zero]
  · intro same
    exact first.writesAt inv regular offset bound same

/-- The file in slot 0 of `smallState`, open for reading and writing. -/
def smallFile : File := ⟨.inode, true, true, 0, 0⟩

def noOutside : Outside := ⟨noDevices, fun _ => none, fun _ _ => none⟩

theorem smallFile_regular : RegularFile smallState smallFile :=
  ⟨rfl, rfl, rfl, ⟨by decide, by decide, by decide⟩, rfl⟩

theorem filepwrite_agrees_iff_small :
    Inv smallSb smallState ∧ RegularFile smallState smallFile ∧
      0 ≤ (smallState.inode 0).size ∧ 0 + 700 ≤ MAXFILE * BSIZE ∧
      Ends Panic.Full (fun r => r.2 = (smallFile, some 700) ∧
          (WritesAt smallSb noOutside smallState smallFile (fun _ => 7) 700 0 r.1 r.2.2 ↔
            PwriteAgrees (contents smallSb smallState.disk 1) 0 (fun _ => 7) 700))
        (filepwrite smallSb noOutside smallState smallFile (fun _ => 7) 700 0) :=
  ⟨smallState_inv, smallFile_regular, Nat.zero_le _, by decide,
    (filepwrite_agrees_iff smallState_inv smallFile_regular (fun _ => 7) (Nat.zero_le _)
      (by decide)).2⟩

/-- 2048 bytes into an empty file: `filepwrite` returns 2048 and leaves 1536 bytes. -/
theorem filepwrite_loses_bytes :
    Inv smallSb smallState ∧ RegularFile smallState smallFile ∧
      0 ≤ (smallState.inode 0).size ∧ 0 + 2048 ≤ MAXFILE * BSIZE ∧
      ∃ t, filepwrite smallSb noOutside smallState smallFile (fun _ => 7) 2048 0 =
          .ok (t, smallFile, some 2048) ∧
        (contents smallSb t.disk 1).length = 1536 ∧
        ¬ WritesAt smallSb noOutside smallState smallFile (fun _ => 7) 2048 0 t (some 2048) := by
  have run : (match filepwrite smallSb noOutside smallState smallFile (fun _ => 7) 2048 0 with
      | .ok r => some (r.2, (dinode smallSb r.1.disk 1).size)
      | .error _ => none) = some ((smallFile, some 2048), 1536) := by
    decide +kernel
  refine ⟨smallState_inv, smallFile_regular, Nat.zero_le _, by decide, ?_⟩
  split at run
  · rename_i r returned
    obtain ⟨t, answer⟩ := r
    simp only [Option.some.injEq, Prod.mk.injEq] at run
    obtain ⟨rfl, size⟩ := run
    have short : (contents smallSb t.disk 1).length = 1536 := by
      rw [contents_length, size]
    refine ⟨t, returned, short, ?_⟩
    intro writes
    have long := congrArg List.length writes.here
    rw [Overlay.length_overlay, length_stretch] at long
    · have same : (smallState.inode smallFile.ip).inum = 1 := by decide
      rw [same] at long
      omega
    · exact offset_le_length smallState_inv smallFile_regular.opened (Nat.zero_le _)
  · cases run

end Xv6.Fs
