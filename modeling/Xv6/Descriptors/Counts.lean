import Xv6.Descriptors.Model

/- The reference counts of open files are exact between system calls. -/
namespace Xv6.Descriptors

open Function Outcome Refs Option List

variable {g page f0 f1 np : Nat} {writable : Bool}

theorem mem_slots {p fd : Nat} : (p, fd) ∈ slots ↔ p < NPROC ∧ fd < NOFILE := by
  unfold slots
  rw [Finset.mem_product, Finset.mem_range, Finset.mem_range]

/-- Whether an end of a pipe is open. -/
def Files.isOpen (s : Files) (page : Nat) (writable : Bool) : Bool :=
  match s.pipe page with
  | none => false
  | some ends => if writable then ends.writeopen else ends.readopen

/-- What holds inside a call that has the references `held` in hand and has allocated, but not yet
set up, the files `fresh`. -/
structure Sound (s : Files) (fresh held : List Nat) : Prop where
  counted : Counted slots (fun f => (s.file f).ref) s.ofile held
  inside : ∀ slot f, s.ofile slot = some f → slot ∈ slots
  typed : ∀ f, (s.file f).type = .none ↔ (s.file f).ref = 0 ∨ f ∈ fresh
  ends : ∀ page writable, s.isOpen page writable = true ↔ ∃ f, (s.file f).type = .pipe page writable
  single : ∀ f g page writable, (s.file f).type = .pipe page writable →
    (s.file g).type = .pipe page writable → f = g

variable {s t : Files} {fresh held : List Nat} {f p fd : Nat} {slot : Nat × Nat}

theorem ref_setFile (s : Files) (f : Nat) (new : File) :
    (fun g => ((s.setFile f new).file g).ref) = update (fun g => (s.file g).ref) f new.ref := by
  funext g
  by_cases same : g = f
  · rw [same, setFile_self, update_self]
  · rw [setFile_of_ne same, update_of_ne same]

theorem type_setFile {new : File} (kept : new.type = (s.file f).type) :
    ((s.setFile f new).file g).type = (s.file g).type := by
  by_cases same : g = f
  · rw [same, setFile_self, kept]
  · rw [setFile_of_ne same]

theorem Sound.recount {n : Nat} {now : List Nat} (sound : Sound s fresh held)
    (counted : Counted slots (update (fun g => (s.file g).ref) f n) s.ofile now)
    (side : n = 0 ↔ (s.file f).ref = 0) :
    Sound (s.setFile f { s.file f with ref := n }) fresh now := by
  have types : ∀ g, ((s.setFile f { s.file f with ref := n }).file g).type = (s.file g).type :=
    fun g => type_setFile rfl
  refine ⟨?_, sound.inside, ?_, ?_, ?_⟩
  · rw [ref_setFile]
    exact counted
  · intro g
    rw [types, sound.typed]
    by_cases same : g = f
    · rw [same, setFile_self, side]
    · rw [setFile_of_ne same]
  · intro page writable
    simp only [types]
    exact sound.ends page writable
  · intro g h page writable
    rw [types, types]
    exact sound.single g h page writable

theorem filedup_eq (positive : 0 < (s.file f).ref) :
    filedup s f = .ok (s.setFile f { s.file f with ref := (s.file f).ref + 1 }) :=
  if_neg (by omega)

theorem Sound.dup (sound : Sound s fresh held) (positive : 0 < (s.file f).ref) :
    Sound (s.setFile f { s.file f with ref := (s.file f).ref + 1 }) fresh (f :: held) :=
  sound.recount (sound.counted.dup f) (by omega)

theorem Sound.slot_pos (sound : Sound s fresh held) (points : s.ofile slot = some f) :
    0 < (s.file f).ref := by
  have count : (s.file f).ref = _ := sound.counted f
  have := Refs.refs_pos (sound.inside slot f points) points
  omega

theorem Sound.put (sound : Sound s fresh (f :: held)) (inside : slot ∈ slots)
    (free : s.ofile slot = none) : Sound (s.setSlot slot (some f)) fresh held := by
  refine ⟨sound.counted.put inside free, ?_, sound.typed, sound.ends, sound.single⟩
  intro other g points
  by_cases same : other = slot
  · exact same ▸ inside
  · have old : update s.ofile slot (some f) other = some g := points
    rw [update_of_ne same] at old
    exact sound.inside other g old

theorem Sound.take (sound : Sound s fresh held) (points : s.ofile slot = some f) :
    Sound (s.setSlot slot none) fresh (f :: held) := by
  refine ⟨sound.counted.take (sound.inside slot f points) points, ?_, sound.typed,
      sound.ends, sound.single⟩
  intro other g entry
  by_cases same : other = slot
  · exact same ▸ sound.inside slot f points
  · have old : update s.ofile slot none other = some g := entry
    rw [update_of_ne same] at old
    exact sound.inside other g old

theorem Sound.perm {left other : List Nat} (sound : Sound s fresh held) (new : fresh.Perm left)
    (same : held.Perm other) : Sound s left other :=
  ⟨sound.counted.perm same, sound.inside, fun f => by rw [sound.typed, new.mem_iff],
      sound.ends, sound.single⟩

/-- A free entry of `ftable` has no type. -/
theorem Sound.filealloc (sound : Sound s fresh held) (taken : filealloc s = some (t, f)) :
    Sound t (f :: fresh) (f :: held) ∧ t.ofile = s.ofile ∧ (t.file f).ref = 1 ∧
      (∀ g, g ≠ f → t.file g = s.file g) ∧ (s.file f).ref = 0 ∧ t.pipe = s.pipe := by
  obtain ⟨g, found, same⟩ := map_eq_some_iff.mp taken
  cases same
  obtain ⟨_, _, free, _⟩ := Scan.first_eq_some found
  have zero : (s.file f).ref = 0 := beq_iff_eq.mp free
  have types : ∀ g, ((s.setFile f { s.file f with ref := 1 }).file g).type = (s.file g).type :=
    fun g => type_setFile rfl
  refine ⟨⟨?_, sound.inside, ?_, ?_, ?_⟩, rfl, ?_, ?_, zero, rfl⟩
  · rw [ref_setFile]
    have counted := sound.counted.dup f
    rw [zero] at counted
    exact counted
  · intro g
    rw [types, sound.typed, mem_cons]
    by_cases same : g = f
    · rw [same, zero]
      exact ⟨fun _ => .inr (.inl rfl), fun _ => .inl rfl⟩
    · rw [setFile_of_ne same, or_iff_right same]
  · intro page writable
    simp only [types]
    exact sound.ends page writable
  · intro g h page writable
    rw [types, types]
    exact sound.single g h page writable
  · rw [setFile_self]
  · exact fun g other => setFile_of_ne other

/-- The types after an entry of `ftable` is given back. -/
theorem type_free (g : Nat) :
    ((s.setFile f ⟨0, .none⟩).file g).type = if g = f then .none else (s.file g).type := by
  by_cases same : g = f
  · rw [same, setFile_self, if_pos rfl]
  · rw [setFile_of_ne same, if_neg same]

theorem type_free_pipe :
    ((s.setFile f ⟨0, .none⟩).file g).type = .pipe page writable ↔
      g ≠ f ∧ (s.file g).type = .pipe page writable := by
  rw [type_free]
  by_cases same : g = f
  · rw [if_pos same]
    exact ⟨fun other => (nomatch other), fun both => absurd same both.1⟩
  · rw [if_neg same]
    exact ⟨fun type => ⟨same, type⟩, And.right⟩

/-- The last reference is given up; `pipe` tells what becomes of the pipes. -/
theorem Sound.free {left : List Nat} (sound : Sound s fresh (f :: held)) (pipe : Nat → Option Ends)
    (last : (s.file f).ref = 1) (rest : ∀ g, g ≠ f → (g ∈ left ↔ g ∈ fresh))
    (ends : ∀ page writable, ({ s with pipe := pipe } : Files).isOpen page writable = true ↔
      ∃ g, g ≠ f ∧ (s.file g).type = .pipe page writable) :
    Sound { s.setFile f ⟨0, .none⟩ with pipe := pipe } left held := by
  refine ⟨?_, sound.inside, ?_, ?_, ?_⟩
  · show Counted slots (fun g => ((s.setFile f ⟨0, .none⟩).file g).ref) s.ofile held
    rw [ref_setFile]
    have counted := sound.counted.drop
    rw [last] at counted
    exact counted
  · intro g
    show ((s.setFile f ⟨0, .none⟩).file g).type = .none ↔
      ((s.setFile f ⟨0, .none⟩).file g).ref = 0 ∨ _
    by_cases same : g = f
    · rw [same, setFile_self]
      exact ⟨fun _ => .inl rfl, fun _ => rfl⟩
    · rw [setFile_of_ne same, sound.typed, rest g same]
  · intro page writable
    refine (ends page writable).trans ?_
    exact exists_congr fun g => type_free_pipe.symm
  · intro g h page writable first second
    exact sound.single g h page writable (type_free_pipe.mp first).2 (type_free_pipe.mp second).2

/-- Closing the last reference to a pipe end closes the end. -/
theorem pipeclose_eq (opened : s.isOpen page writable = true) :
    ∃ pipe, pipeclose s page writable = .ok { s with pipe := pipe } ∧
      ∀ a w, ({ s with pipe := pipe } : Files).isOpen a w = true ↔
        s.isOpen a w = true ∧ ¬ (a = page ∧ w = writable) := by
  unfold Files.isOpen at opened
  cases found : s.pipe page with
  | none =>
    rw [found] at opened
    cases opened
  | some ends =>
    rw [pipeclose, found]
    refine ⟨_, rfl, fun a w => ?_⟩
    by_cases here : a = page
    · unfold Files.isOpen
      dsimp only
      rw [here, found, update_self]
      obtain ⟨readopen, writeopen⟩ := ends
      cases w <;> cases writable <;> cases readopen <;> cases writeopen <;> simp
    · unfold Files.isOpen
      dsimp only
      rw [update_of_ne here]
      simp only [here, false_and, not_false_eq_true, and_true]

theorem Sound.fileclose (sound : Sound s [] (f :: held)) :
    ∃ t, fileclose s f = .ok t ∧ Sound t [] held ∧ t.ofile = s.ofile := by
  have positive : 0 < (s.file f).ref := sound.counted.held_pos
  unfold Descriptors.fileclose
  rw [if_neg (by omega)]
  by_cases more : (s.file f).ref - 1 > 0
  · rw [if_pos more]
    exact ⟨_, rfl, sound.recount sound.counted.drop (by omega), rfl⟩
  rw [if_neg more]
  have last : (s.file f).ref = 1 := by omega
  cases type : (s.file f).type with
  | none =>
    have unused := (sound.typed f).mp type
    rw [last] at unused
    simp at unused
  | inode ip =>
    refine ⟨_, rfl, ?_, rfl⟩
    apply sound.free s.pipe last (fun _ _ => Iff.rfl)
    intro page writable
    refine (sound.ends page writable).trans (exists_congr fun g => ?_)
    exact ⟨fun pipe => ⟨fun same => (by rw [same, type] at pipe; cases pipe), pipe⟩, And.right⟩
  | pipe page writable =>
    have opened : (s.setFile f ⟨0, .none⟩).isOpen page writable = true :=
      (sound.ends page writable).mpr ⟨f, type⟩
    obtain ⟨pipe, closed, after⟩ := pipeclose_eq opened
    refine ⟨_, closed, ?_, rfl⟩
    apply sound.free _ last (fun _ _ => Iff.rfl)
    intro a w
    refine (after a w).trans ?_
    constructor
    · rintro ⟨isOpen, other⟩
      obtain ⟨g, typeG⟩ := (sound.ends a w).mp isOpen
      refine ⟨g, ?_, typeG⟩
      rintro rfl
      rw [type] at typeG
      cases typeG
      exact other ⟨rfl, rfl⟩
    · rintro ⟨g, other, typeG⟩
      refine ⟨(sound.ends a w).mpr ⟨g, typeG⟩, ?_⟩
      rintro ⟨rfl, rfl⟩
      exact other (sound.single g f _ _ typeG type)

theorem Sound.closeFresh (sound : Sound s (f :: fresh) (f :: held)) (last : (s.file f).ref = 1) :
    ∃ t, Descriptors.fileclose s f = .ok t ∧ Sound t fresh held ∧ t.ofile = s.ofile ∧
      ∀ g, g ≠ f → t.file g = s.file g := by
  have type : (s.file f).type = .none := (sound.typed f).mpr (.inr mem_cons_self)
  refine ⟨s.setFile f ⟨0, .none⟩, ?_, ?_, rfl, fun g other => setFile_of_ne other⟩
  · unfold Descriptors.fileclose
    rw [if_neg (by omega), if_neg (by omega), type]
  apply sound.free s.pipe last
  · intro g other
    rw [mem_cons, or_iff_right other]
  · intro page writable
    refine (sound.ends page writable).trans (exists_congr fun g => ?_)
    exact ⟨fun pipe => ⟨fun same => (by rw [same, type] at pipe; cases pipe), pipe⟩, And.right⟩

theorem fdalloc_eq (taken : fdalloc s p f = some (t, fd)) :
    t = s.setSlot (p, fd) (some f) ∧ fd < NOFILE ∧ s.ofile (p, fd) = none := by
  obtain ⟨found, first, same⟩ := map_eq_some_iff.mp taken
  cases same
  obtain ⟨_, inside, free, _⟩ := Scan.first_eq_some first
  exact ⟨rfl, by omega, isNone_iff_eq_none.mp free⟩

theorem Sound.fdalloc (sound : Sound s fresh (f :: held)) (inside : p < NPROC)
    (taken : fdalloc s p f = some (t, fd)) : Sound t fresh held := by
  obtain ⟨same, small, free⟩ := fdalloc_eq taken
  rw [same]
  exact sound.put (mem_slots.mpr ⟨inside, small⟩) free

/-- A descriptor for a file that has one: the slot is filled before or after `filedup`. -/
theorem Sound.share (sound : Sound s fresh held) (positive : 0 < (s.file f).ref)
    (inside : slot ∈ slots) (free : s.ofile slot = none) :
    filedup (s.setSlot slot (some f)) f = (filedup s f).map (·.setSlot slot (some f)) ∧
    ∃ t, filedup s f = .ok t ∧ Sound (t.setSlot slot (some f)) fresh held ∧ t.ofile = s.ofile := by
  rw [filedup_eq positive, filedup_eq (s := s.setSlot slot (some f)) positive]
  exact ⟨rfl, _, rfl, (sound.dup positive).put inside free, rfl⟩

theorem Sound.sys_dup (sound : Sound s [] []) (inside : p < NPROC) (fd : Nat) :
    ∃ t r, sys_dup s p fd = .ok (t, r) ∧ Sound t [] [] := by
  unfold Descriptors.sys_dup
  cases found : argfd s p fd with
  | none => exact ⟨s, none, rfl, sound⟩
  | some f =>
    obtain ⟨_, points⟩ := ite_none_right_eq_some.mp found
    dsimp only
    cases taken : Descriptors.fdalloc s p f with
    | none => exact ⟨s, none, rfl, sound⟩
    | some pair =>
      obtain ⟨u, new⟩ := pair
      obtain ⟨same, small, free⟩ := fdalloc_eq taken
      obtain ⟨order, t, dup, after, _⟩ :=
        sound.share (sound.slot_pos points) (mem_slots.mpr ⟨inside, small⟩) free
      refine ⟨_, some new, ?_, after⟩
      dsimp only
      rw [same, order, dup]
      rfl

theorem Sound.sys_close (sound : Sound s [] []) (fd : Nat) :
    ∃ t r, sys_close s p fd = .ok (t, r) ∧ Sound t [] [] := by
  unfold Descriptors.sys_close
  cases found : argfd s p fd with
  | none => exact ⟨s, none, rfl, sound⟩
  | some f =>
    obtain ⟨_, points⟩ := ite_none_right_eq_some.mp found
    obtain ⟨t, closed, after, _⟩ := (sound.take points).fileclose
    exact ⟨t, some 0, bind_eq_ok.mpr ⟨t, closed, rfl⟩, after⟩

theorem Sound.setInode {ip : Nat} (sound : Sound s (f :: fresh) held) (fresh_ : f ∉ fresh)
    (used : (s.file f).ref ≠ 0) :
    Sound (s.setFile f { s.file f with type := .inode ip }) fresh held := by
  have old : (s.file f).type = .none := (sound.typed f).mpr (.inr mem_cons_self)
  have pipes : ∀ g page writable,
      ((s.setFile f { s.file f with type := .inode ip }).file g).type = .pipe page writable ↔
        (s.file g).type = .pipe page writable := by
    intro g page writable
    by_cases same : g = f
    · rw [same, setFile_self, old]
      exact ⟨fun other => (nomatch other), fun other => (nomatch other)⟩
    · rw [setFile_of_ne same]
  refine ⟨?_, sound.inside, ?_, ?_, ?_⟩
  · rw [ref_setFile, update_eq_self]
    exact sound.counted
  · intro g
    by_cases same : g = f
    · rw [same, setFile_self]
      exact ⟨fun other => (nomatch other), fun other => absurd other (not_or.mpr ⟨used, fresh_⟩)⟩
    · rw [setFile_of_ne same, sound.typed, mem_cons, or_iff_right same]
  · intro page writable
    exact (sound.ends page writable).trans (exists_congr fun g => (pipes g page writable).symm)
  · intro g h page writable first second
    exact sound.single g h page writable ((pipes _ _ _).mp first) ((pipes _ _ _).mp second)

theorem Sound.sys_open (sound : Sound s [] []) (inside : p < NPROC) (ip : Option Nat) :
    ∃ t r, sys_open s p ip = .ok (t, r) ∧ Sound t [] [] := by
  unfold Descriptors.sys_open
  cases ip with
  | none => exact ⟨s, none, rfl, sound⟩
  | some ip =>
    dsimp only
    cases allocated : Descriptors.filealloc s with
    | none => exact ⟨s, none, rfl, sound⟩
    | some pair =>
      obtain ⟨u, f⟩ := pair
      obtain ⟨hand, _, one, _⟩ := sound.filealloc allocated
      dsimp only
      cases taken : Descriptors.fdalloc u p f with
      | none =>
        obtain ⟨t, closed, after, _⟩ := hand.closeFresh one
        exact ⟨t, none, bind_eq_ok.mpr ⟨t, closed, rfl⟩, after⟩
      | some pair =>
        obtain ⟨v, fd⟩ := pair
        have placed := hand.fdalloc inside taken
        obtain ⟨same, _, _⟩ := fdalloc_eq taken
        have used : (v.file f).ref = 1 := by
          rw [same]
          exact one
        exact ⟨_, some fd, rfl, placed.setInode not_mem_nil (by rw [used]; decide)⟩

/-- The two files of a new pipe. -/
def Files.setPipe (s : Files) (page f0 f1 : Nat) : Files :=
  let s := { s with pipe := update s.pipe page (some ⟨true, true⟩) }
  let s := s.setFile f0 { s.file f0 with type := .pipe page false }
  s.setFile f1 { s.file f1 with type := .pipe page true }

theorem setPipe_file (different : f0 ≠ f1) (page g : Nat) :
    (s.setPipe page f0 f1).file g = { s.file g with
      type := if g = f1 then .pipe page true else if g = f0 then .pipe page false
        else (s.file g).type } := by
  unfold Files.setPipe
  by_cases second : g = f1
  · rw [second, setFile_self, setFile_of_ne different.symm, if_pos rfl]
  · rw [setFile_of_ne second, if_neg second]
    by_cases first : g = f0
    · rw [first, setFile_self, if_pos rfl]
    · rw [setFile_of_ne first, if_neg first]

theorem Sound.setPipe (sound : Sound s [f1, f0] held) (different : f0 ≠ f1)
    (used0 : (s.file f0).ref ≠ 0) (used1 : (s.file f1).ref ≠ 0) (free : s.pipe page = none) :
    Sound (s.setPipe page f0 f1) [] held := by
  have files := setPipe_file (s := s) different page
  have closed : ∀ g writable, (s.file g).type ≠ .pipe page writable := by
    intro g writable type
    have isOpen := (sound.ends page writable).mpr ⟨g, type⟩
    rw [Files.isOpen, free] at isOpen
    cases isOpen
  have none0 : (s.file f0).type = .none := (sound.typed f0).mpr (.inr (by simp))
  have none1 : (s.file f1).type = .none := (sound.typed f1).mpr (.inr (by simp))
  -- a file of the new pipe is one of the two, the other files are those of before
  have types : ∀ g a writable, ((s.setPipe page f0 f1).file g).type = .pipe a writable ↔
      a = page ∧ g = (if writable then f1 else f0) ∨ (s.file g).type = .pipe a writable := by
    intro g a writable
    rw [files]
    dsimp only
    by_cases second : g = f1
    · rw [if_pos second, second, none1]
      cases writable <;> simp [different.symm, eq_comm]
    rw [if_neg second]
    by_cases first : g = f0
    · rw [if_pos first, first, none0]
      cases writable <;> simp [different, eq_comm]
    · rw [if_neg first]
      cases writable <;> simp [first, second]
  refine ⟨?_, sound.inside, ?_, ?_, ?_⟩
  · have refs : (fun g => ((s.setPipe page f0 f1).file g).ref) = fun g => (s.file g).ref := by
      funext g
      rw [files]
    rw [refs]
    exact sound.counted
  · intro g
    rw [files]
    dsimp only
    by_cases second : g = f1
    · rw [if_pos second, second]
      simp [used1]
    rw [if_neg second]
    by_cases first : g = f0
    · rw [if_pos first, first]
      simp [used0]
    · rw [if_neg first, sound.typed]
      simp [first, second]
  · intro a writable
    simp only [types]
    by_cases here : a = page
    · subst here
      have isOpen : (s.setPipe a f0 f1).isOpen a writable = true := by
        show (match update s.pipe a (some ⟨true, true⟩) a with
          | none => false
          | some ends => if writable then ends.writeopen else ends.readopen) = true
        rw [update_self]
        cases writable <;> rfl
      exact ⟨fun _ => ⟨_, .inl ⟨rfl, rfl⟩⟩, fun _ => isOpen⟩
    · have other : (s.setPipe page f0 f1).isOpen a writable = s.isOpen a writable := by
        show (match update s.pipe page (some ⟨true, true⟩) a with
          | none => false
          | some ends => if writable then ends.writeopen else ends.readopen) = _
        rw [update_of_ne here]
        rfl
      rw [other, sound.ends]
      simp only [here, false_and, false_or]
  · intro g h a writable first second
    rcases (types g a writable).mp first with ⟨rfl, firstG⟩ | oldG <;>
      rcases (types h _ writable).mp second with ⟨same, secondH⟩ | oldH
    · rw [firstG, secondH]
    · exact absurd oldH (closed h writable)
    · rw [same] at oldG
      exact absurd oldG (closed g writable)
    · exact sound.single g h a writable oldG oldH

/-- `pipealloc` has the two new files in hand, or nothing. -/
theorem Sound.pipealloc (sound : Sound s [] []) {page : Option Nat}
    (free : ∀ a ∈ page, s.pipe a = none) :
    ∃ t, (pipealloc s page = .ok (t, none) ∧ Sound t [] []) ∨
      ∃ f0 f1, pipealloc s page = .ok (t, some (f0, f1)) ∧ Sound t [] [f1, f0] := by
  unfold Descriptors.pipealloc
  cases allocated : Descriptors.filealloc s with
  | none => exact ⟨s, .inl ⟨rfl, sound⟩⟩
  | some pair =>
    obtain ⟨u, f0⟩ := pair
    obtain ⟨first, _, one, _, _, pipe⟩ := sound.filealloc allocated
    dsimp only
    cases allocated1 : Descriptors.filealloc u with
    | none =>
      obtain ⟨t, closed, after, _⟩ := first.closeFresh one
      exact ⟨t, .inl ⟨bind_eq_ok.mpr ⟨t, closed, rfl⟩, after⟩⟩
    | some pair =>
      obtain ⟨v, f1⟩ := pair
      obtain ⟨second, _, one1, others, zero, pipe1⟩ := first.filealloc allocated1
      have different : f0 ≠ f1 := by
        rintro rfl
        rw [one] at zero
        cases zero
      have one0 : (v.file f0).ref = 1 := by rw [others f0 different, one]
      cases page with
      | none =>
        -- the files are given back in the order in which they were taken
        have swapped := second.perm (List.Perm.swap f0 f1 []) (List.Perm.swap f0 f1 [])
        obtain ⟨w, closed, hand, _, rest⟩ := swapped.closeFresh one0
        obtain ⟨t, closed1, after, _⟩ := hand.closeFresh (by rw [rest f1 different.symm, one1])
        refine ⟨t, .inl ⟨?_, after⟩⟩
        exact bind_eq_ok.mpr ⟨w, closed, bind_eq_ok.mpr ⟨t, closed1, rfl⟩⟩
      | some page =>
        refine ⟨v.setPipe page f0 f1, .inr ⟨f0, f1, rfl, ?_⟩⟩
        apply second.setPipe different
        · rw [one0]
          decide
        · rw [one1]
          decide
        · rw [pipe1, pipe]
          exact free page rfl

theorem Sound.sys_pipe (sound : Sound s [] []) (inside : p < NPROC) {page : Option Nat}
    (free : ∀ a ∈ page, s.pipe a = none) : ∃ t r, sys_pipe s p page = .ok (t, r) ∧
    Sound t [] [] := by
  unfold Descriptors.sys_pipe
  obtain ⟨u, ⟨ran, after⟩ | ⟨rf, wf, ran, hand⟩⟩ := sound.pipealloc free
  · exact ⟨u, none, bind_eq_ok.mpr ⟨_, ran, rfl⟩, after⟩
  have swapped := hand.perm (.refl _) (List.Perm.swap rf wf [])
  cases taken : Descriptors.fdalloc u p rf with
  | none =>
    obtain ⟨v, closed, left, _⟩ := swapped.fileclose
    obtain ⟨t, closed1, after, _⟩ := left.fileclose
    refine ⟨t, none, bind_eq_ok.mpr ⟨_, ran, ?_⟩, after⟩
    dsimp only
    rw [taken]
    exact bind_eq_ok.mpr ⟨v, closed, bind_eq_ok.mpr ⟨t, closed1, rfl⟩⟩
  | some pair =>
    obtain ⟨v, fd0⟩ := pair
    have placed := swapped.fdalloc inside taken
    obtain ⟨same, _, _⟩ := fdalloc_eq taken
    cases taken1 : Descriptors.fdalloc v p wf with
    | none =>
      have points : v.ofile (p, fd0) = some rf := by
        rw [same]
        exact update_self _ _ _
      obtain ⟨w, closed, left, _⟩ := (placed.take points).fileclose
      obtain ⟨t, closed1, after, _⟩ := left.fileclose
      refine ⟨t, none, bind_eq_ok.mpr ⟨_, ran, ?_⟩, after⟩
      dsimp only
      rw [taken]
      dsimp only
      rw [taken1]
      exact bind_eq_ok.mpr ⟨w, closed, bind_eq_ok.mpr ⟨t, closed1, rfl⟩⟩
    | some pair =>
      obtain ⟨t, fd1⟩ := pair
      refine ⟨t, some (fd0, fd1), bind_eq_ok.mpr ⟨_, ran, ?_⟩, placed.fdalloc inside taken1⟩
      dsimp only
      rw [taken]
      dsimp only
      rw [taken1]

/-- The files of `p` are shared with a slot that has none. -/
theorem Sound.dupFiles (sound : Sound s [] []) (inside : np < NPROC)
    (vacant : ∀ fd < NOFILE, s.ofile (np, fd) = none) : ∃ t, dupFiles s p np = .ok t ∧
    Sound t [] [] := by
  suffices total : ∃ t, Descriptors.dupFiles s p np = .ok t ∧ Sound t [] [] ∧
      ∀ fd < NOFILE, fd ∉ List.range NOFILE → t.ofile (np, fd) = none from
    total.imp fun t kept => ⟨kept.1, kept.2.1⟩
  refine foldlM_total
    (fun done v => Sound v [] [] ∧ ∀ fd < NOFILE, fd ∉ done → v.ofile (np, fd) = none)
    ?_ ⟨sound, fun fd small _ => vacant fd small⟩
  rintro done next rest v whole ⟨before, left⟩
  have small : next < NOFILE := by
    rw [← mem_range, whole]
    exact mem_append_right _ mem_cons_self
  have new : next ∉ done := by
    have nodup : (done ++ next :: rest).Nodup := whole ▸ nodup_range
    exact fun mem => (nodup_append.mp nodup).2.2 next mem next mem_cons_self rfl
  have later : ∀ fd, fd ∉ done ++ [next] → fd ∉ done ∧ fd ≠ next := by
    intro fd outside
    rw [mem_append, mem_singleton, not_or] at outside
    exact outside
  cases points : v.ofile (p, next) with
  | none => exact ⟨v, rfl, before, fun fd inFd outside => left fd inFd (later fd outside).1⟩
  | some f =>
    obtain ⟨_, u, dup, after, same⟩ := before.share (before.slot_pos points)
      (mem_slots.mpr ⟨inside, small⟩) (left next small new)
    refine ⟨u.setSlot (np, next) (some f), bind_eq_ok.mpr ⟨u, dup, rfl⟩, after, ?_⟩
    intro fd inFd outside
    have other : (np, fd) ≠ (np, next) := fun equal => (later fd outside).2 (Prod.mk.inj equal).2
    show update u.ofile (np, next) (some f) (np, fd) = none
    rw [update_of_ne other, same]
    exact left fd inFd (later fd outside).1

/-- `fileclose` does not look at the descriptors. -/
theorem fileclose_setSlot {new : Option Nat} (closed : fileclose (s.setSlot slot new) f = .ok t) :
    ∃ u, fileclose s f = .ok u ∧ u.setSlot slot new = t := by
  unfold fileclose at closed ⊢
  have same : (s.setSlot slot new).file f = s.file f := rfl
  rw [same] at closed
  split at closed
  · cases closed
  rename_i positive
  rw [if_neg positive]
  split at closed
  · rename_i more
    rw [if_pos more]
    exact ⟨_, rfl, Except.ok.inj closed⟩
  rename_i last
  rw [if_neg last]
  cases type : (s.file f).type with
  | none | inode ip =>
    rw [type] at closed
    exact ⟨_, rfl, Except.ok.inj closed⟩
  | pipe page writable =>
    rw [type] at closed
    unfold pipeclose at closed ⊢
    have pipe : ((s.setSlot slot new).setFile f ⟨0, .none⟩).pipe page = s.pipe page := rfl
    have pipe' : (s.setFile f ⟨0, .none⟩).pipe page = s.pipe page := rfl
    dsimp only at closed ⊢
    rw [pipe] at closed
    rw [pipe']
    cases found : s.pipe page with
    | none =>
      rw [found] at closed
      cases closed
    | some ends =>
      rw [found] at closed
      exact ⟨_, rfl, Except.ok.inj closed⟩

theorem Sound.closeFiles (sound : Sound s [] []) (p : Nat) : ∃ t, closeFiles s p = .ok t ∧
    Sound t [] [] := by
  refine foldlM_total (fun _ v => Sound v [] []) ?_ sound
  rintro done next rest v whole before
  cases points : v.ofile (p, next) with
  | none => exact ⟨v, rfl, before⟩
  | some f =>
    obtain ⟨t, closed, after, _⟩ := (before.take points).fileclose
    obtain ⟨u, closed, same⟩ := fileclose_setSlot closed
    exact ⟨t, bind_eq_ok.mpr ⟨u, closed, by rw [same]⟩, after⟩

theorem Sound.closeGroup (sound : Sound s [] []) (k : Process.Kernel) (p : Nat) :
    ∃ t, closeGroup k s p = .ok t ∧ Sound t [] [] := by
  obtain ⟨u, workers, after⟩ :
    ∃ u, (k.workers (k.masterOf p)).foldlM Descriptors.closeFiles s = .ok u ∧
      Sound u [] [] :=
    foldlM_total (fun _ v => Sound v [] []) (fun _ next _ v _ before =>
      before.closeFiles next) sound
  obtain ⟨t, master, final⟩ := after.closeFiles (k.masterOf p)
  exact ⟨t, bind_eq_ok.mpr ⟨u, workers, master⟩, final⟩

/-- A new process or thread takes the first unused slot. -/
theorem fork_slot {k u : Process.Kernel} (ran : Process.fork k p = .ok (u, some np)) :
    k.unusedSlot = some np := by
  rcases Process.fork_eq ran with ⟨none, _⟩ | ⟨q, found, ⟨none, _⟩ | ⟨v, _, rest⟩⟩
  · cases none
  · cases none
  · obtain ⟨_, _, _, _, _, ⟨_, none, _⟩ | ⟨_, _, _, made, _⟩⟩ := Process.forkRest_eq rest
    · cases none
    · rw [found, made]

theorem stackedThread_slot {k : Process.Kernel} {thrd : Nat}
    (stacked : stackedThread k p = some thrd) :
    k.unusedSlot = some thrd := by
  unfold stackedThread Process.allocthread at stacked
  cases found : k.unusedSlot with
  | none =>
    rw [found] at stacked
    cases stacked
  | some q =>
    rw [found] at stacked
    dsimp only at stacked
    cases rest : Process.allocthreadRest (k.claim q) (k.masterOf p) q with
    | error e =>
      rw [rest] at stacked
      cases stacked
    | ok pair =>
      obtain ⟨u, _ | _⟩ := pair
      · rw [rest] at stacked
        cases stacked
      rw [rest] at stacked
      dsimp only [bind, Except.bind] at stacked
      split at stacked
      · cases stacked
        rfl
      · cases stacked

/-- The slot that `fork` or `thread_create` would take has no open files. -/
def Vacant (s : System) : Event → Prop
  | .call (.fork _) | .call (.threadCreate ..) =>
    ∀ np ∈ s.m.k.unusedSlot, ∀ fd < NOFILE, s.files.ofile (np, fd) = none
  | _ => True

instance (s : System) (event : Event) : Decidable (Vacant s event) := by
  unfold Vacant
  split <;> infer_instance

/-- Between system calls. -/
structure Exact (s : System) : Prop where
  running : s.panic = none
  sound : Sound s.files [] []

theorem Exact.after {s : System} {m : Process.Calls.Machine} {result : Except Panic Files}
    (exact : Exact s) (returns : ∃ t, result = .ok t ∧ Sound t [] []) :
    Exact (s.after m result) := by
  obtain ⟨t, rfl, sound⟩ := returns
  exact ⟨exact.running, sound⟩

theorem Exact.effect {s : System} {event : Process.Calls.Event} (exact : Exact s)
    (vacant : Vacant s (.call event)) : ∃ t, effect s.m.k s.files event = .ok t ∧
    Sound t [] [] := by
  have unchanged : ∃ t, (.ok s.files : Except Panic Files) = .ok t ∧ Sound t [] [] :=
    ⟨_, rfl, exact.sound⟩
  cases event with
  | fork p =>
    unfold Descriptors.effect
    dsimp only
    split
    · rename_i np ran
      have slot := fork_slot ran
      exact exact.sound.dupFiles (Process.unusedSlot_spec slot).1 (vacant np slot)
    · exact unchanged
  | threadCreate p arg =>
    unfold Descriptors.effect
    dsimp only
    split
    · rename_i thrd stacked
      have slot := stackedThread_slot stacked
      exact exact.sound.dupFiles (Process.unusedSlot_spec slot).1 (vacant thrd slot)
    · exact unchanged
  | threadExit p retval =>
    unfold Descriptors.effect
    dsimp only
    split
    · exact exact.sound.closeGroup _ _
    · exact exact.sound.closeFiles _
  | exit p => exact exact.sound.closeGroup _ _
  | threadJoin | joinAgain | wait | exec | sbrk | kill | dispatch | yield | sleep | wakeup =>
    exact unchanged

theorem exact_step {s next : System} {event : Event} (exact : Exact s) (vacant : Vacant s event)
    (taken : step s event = some next) : Exact next := by
  have first : ∀ {R : Type} {r : Except Panic (Files × R)},
      (∃ t v, r = .ok (t, v) ∧ Sound t [] []) → ∃ t, r.map Prod.fst = .ok t ∧ Sound t [] [] := by
    rintro R r ⟨t, v, rfl, sound⟩
    exact ⟨t, rfl, sound⟩
  cases event with
  | call event =>
    obtain ⟨_, taken⟩ := ite_none_right_eq_some.mp taken
    obtain ⟨m, _, rfl⟩ := map_eq_some_iff.mp taken
    exact exact.after (exact.effect vacant)
  | dup p fd =>
    obtain ⟨may, same⟩ := ite_none_right_eq_some.mp taken
    cases same
    exact exact.after (first (exact.sound.sys_dup may.1 fd))
  | close p fd =>
    obtain ⟨may, same⟩ := ite_none_right_eq_some.mp taken
    cases same
    exact exact.after (first (exact.sound.sys_close fd))
  | «open» p ip =>
    obtain ⟨may, same⟩ := ite_none_right_eq_some.mp taken
    cases same
    exact exact.after (first (exact.sound.sys_open may.1 ip))
  | pipe p page =>
    obtain ⟨⟨may, free⟩, same⟩ := ite_none_right_eq_some.mp taken
    cases same
    exact exact.after (first (exact.sound.sys_pipe may.1 free))

theorem sound_start : Sound Files.start [] [] := by
  refine ⟨?_, fun _ _ points => (nomatch points), ?_, ?_, fun _ _ _ _ type => (nomatch type)⟩
  · intro f
    have nobody : Refs.refs slots Files.start.ofile f = 0 :=
      Refs.refs_eq_zero.mpr fun _ _ points => (nomatch points)
    rw [nobody, count_nil]
    rfl
  · exact fun f => ⟨fun _ => .inl rfl, fun _ => rfl⟩
  · exact fun page writable => ⟨fun isOpen => (nomatch isOpen), fun ⟨_, type⟩ => (nomatch type)⟩

/-- A file is in use while a descriptor points to it. -/
theorem Sound.used_iff (sound : Sound s [] []) :
    (s.file f).type ≠ .none ↔ ∃ slot ∈ slots, s.ofile slot = some f := by
  rw [Ne, sound.typed, or_iff_left not_mem_nil, sound.counted.eq_zero]
  simp only [not_forall, not_not, exists_prop]

theorem Sound.open_iff (sound : Sound s [] []) :
    s.isOpen page writable = true ↔
      ∃ slot ∈ slots, ∃ f, s.ofile slot = some f ∧ (s.file f).type = .pipe page writable := by
  rw [sound.ends]
  constructor
  · rintro ⟨f, type⟩
    obtain ⟨slot, inside, points⟩ := sound.used_iff.mp (by rw [type]; exact Kind.noConfusion)
    exact ⟨slot, inside, f, points, type⟩
  · rintro ⟨_, _, f, _, type⟩
    exact ⟨f, type⟩

/-- In every run in which no slot with open files is given to a new process or thread, the counts
are those of the descriptors, files and pipe ends are in use as long as a descriptor is left, and
nothing panics. -/
theorem descriptors_exact (s last : System) (events : List Event) (fresh : s.files = Files.start)
    (running : s.panic = none) (vacant : Run.Steps step Vacant s events)
    (run : Run.exec step s events = some last) :
    last.panic = none ∧
    (∀ f, (last.files.file f).ref = Refs.refs slots last.files.ofile f) ∧
    (∀ f, (last.files.file f).type ≠ .none ↔ ∃ slot ∈ slots, last.files.ofile slot = some f) ∧
    ∀ page writable, last.files.isOpen page writable = true ↔
      ∃ slot ∈ slots, ∃ f, last.files.ofile slot = some f ∧
        (last.files.file f).type = .pipe page writable := by
  have exact : Exact last := Run.exec_invariant Exact
    (fun _ _ _ before vacant taken => exact_step before vacant taken)
    ⟨running, fresh ▸ sound_start⟩ vacant run
  exact ⟨exact.running, fun f => exact.sound.counted f, fun f => exact.sound.used_iff,
    fun page writable => exact.sound.open_iff⟩

/-- The system after `userinit`, with nobody on a CPU. -/
def System.start (k : Process.Kernel) : System := ⟨Process.Calls.Machine.start k, Files.start, none⟩

/-- init opens a file and forks a child that opens a pipe and creates a thread; all run. -/
def threadRuns : List Event :=
  [.call (.dispatch 0), .open 0 (some 7), .call (.fork 0), .call (.dispatch 1), .pipe 1 (some 500),
    .call (.threadCreate 1 0), .call (.dispatch 2)]

/-- The thread exits and is joined, and the child exits. -/
def joinedRun : List Event :=
  threadRuns ++ [.call (.threadExit 2 0), .call (.threadJoin 1 3), .call (.exit 1)]

theorem descriptors_exact_small : ∃ k last, Process.bootSmall = some k ∧
    Run.exec step (System.start k) joinedRun = some last ∧ last.panic = none ∧
      (last.m.k.proc 2).state = .unused ∧ ∀ page writable, last.files.isOpen page writable = true ↔
        ∃ slot ∈ slots, ∃ f, last.files.ofile slot = some f ∧
          (last.files.file f).type = .pipe page writable := by
  obtain ⟨k, last, booted, ends, vacant, joined⟩ := Process.run_small step System.start joinedRun
    (fun k last => Run.Steps step Vacant (System.start k) joinedRun ∧
      (last.m.k.proc 2).state = .unused) (by decide +kernel)
  have exact := descriptors_exact _ last _ rfl rfl vacant ends
  exact ⟨k, last, Outcome.toOption_eq_some.mpr booted, ends, exact.1, joined, exact.2.2.2⟩

/-- The child exits while its thread runs; the thread, a zombie by now, opens a file before it
leaves the CPU. The second fork of init takes its slot, and no descriptor points to that file any
more. -/
theorem zombie_leaks_file :
    (Process.bootSmall.bind fun k => Run.exec step (System.start k) (threadRuns ++
      [.call (.exit 1), .open 2 (some 9), .call (.wait 0), .call (.fork 0), .call (.fork 0)])).map
      (fun s => (s.panic, s.files.file 1, (List.range NPROC).filter fun p =>
        (List.range NOFILE).any fun fd => s.files.ofile (p, fd) = some 1)) =
    some (none, ⟨1, .inode 9⟩, []) := by
  decide +kernel

end Xv6.Descriptors
