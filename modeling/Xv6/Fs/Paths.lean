import Mathlib.Data.List.TakeWhile
import Xv6.Fs.Contents
import Xv6.Fs.Names

/- How `skipelem` splits a path, and what `namex` makes of the parts. A path is the list of its
bytes before the one that is zero. -/
namespace Xv6.Fs.Names

open Outcome List

variable {sb : Superblock} {devsw : Devsw} {t : Task} {path : List UInt8} {parent : Bool}
    {ip fuel : Nat}

/-- The parts between slashes that are not empty. -/
def components (path : List UInt8) : List (List UInt8) := (path.splitOn slash).filter (· ≠ [])

/-- The buffer `name` after an element was copied to it: a zero is written only behind a short
one. -/
def store (name : Nat → UInt8) (elem : List UInt8) (i : Nat) : UInt8 :=
  if i < min elem.length DIRSIZ then elem.getD i 0
  else if i = elem.length ∧ elem.length < DIRSIZ then 0
  else name i

/-- `skipelem` with the buffer that it writes to. -/
def skipelemInto (path : List UInt8) (name : Nat → UInt8) : Option (List UInt8 × (Nat → UInt8)) :=
  let path := path.dropWhile (· == slash)
  if path = [] then none
  else
    let elem := path.takeWhile (· != slash)
    let path := (path.dropWhile (· != slash)).dropWhile (· == slash)
    some (path, store name elem)

/-- What is in `name` after each call of `skipelem`, up to the one that returns 0. -/
def elements : Nat → List UInt8 → (Nat → UInt8) → Option (List (Nat → UInt8))
  | 0, _, _ => none
  | fuel + 1, path, name =>
    match skipelemInto path name with
    | none => some []
    | some (path, name) => (elements fuel path name).map (name :: ·)

theorem store_zero (elem : List UInt8) : store (fun _ => 0) elem = literal (elem.take DIRSIZ) := by
  funext i
  unfold store literal
  rw [getD_eq_getElem?_getD, getD_eq_getElem?_getD, getElem?_take]
  by_cases inside : i < min elem.length DIRSIZ
  · rw [if_pos inside, if_pos (by omega)]
  · rw [if_neg inside, ite_self]
    split
    · rw [getElem?_eq_none (by omega)]
      rfl
    · rfl

theorem skipelem_eq (path : List UInt8) : skipelem path = skipelemInto path fun _ => 0 := by
  unfold skipelem skipelemInto
  simp only [store_zero]

theorem components_slash (before after : List UInt8) :
    components (before ++ slash :: after) = components before ++ components after := by
  have split :=
    @List.splitOnP_append_cons _ (· == slash) before after slash (beq_self_eq_true slash)
  unfold components List.splitOn
  rw [split, filter_append]

theorem components_dropWhile (path : List UInt8) :
    components (path.dropWhile (· == slash)) = components path := by
  induction path with
  | nil => rfl
  | cons byte rest ih =>
    rw [dropWhile_cons]
    split
    · rename_i isSlash
      rw [ih, eq_of_beq isSlash]
      exact (components_slash [] rest).symm
    · rfl

/-- A path that does not begin with a slash begins with its first component. -/
theorem components_cons {byte : UInt8} {tail : List UInt8} (first : (byte == slash) = false) :
    components (byte :: tail) = (byte :: tail).takeWhile (· != slash) ::
      components ((byte :: tail).dropWhile (· != slash)) := by
  have split := takeWhile_append_dropWhile (p := (· != slash)) (l := byte :: tail)
  have next := head?_dropWhile_not (· != slash) (byte :: tail)
  have whole : ∀ b ∈ (byte :: tail).takeWhile (· != slash), (b == slash) = false := by
    intro b member
    simpa using mem_takeWhile_imp member
  have more : (byte :: tail).takeWhile (· != slash) ≠ [] := by
    rw [takeWhile_cons, if_pos (by simpa using first)]
    exact cons_ne_nil _ _
  generalize (byte :: tail).takeWhile (· != slash) = elem at *
  have one : components elem = [elem] := by
    unfold components List.splitOn
    rw [splitOnP_eq_singleton whole]
    exact filter_cons_of_pos (decide_eq_true more)
  cases after : (byte :: tail).dropWhile (· != slash) with
  | nil =>
    rw [after, append_nil] at split
    rw [← split]
    exact one
  | cons sep rest =>
    rw [after] at split next
    have isSlash : sep = slash := by simpa using next
    rw [← split, isSlash, components_slash, one]
    exact congrArg (elem :: ·) (components_slash [] rest).symm

/-- `skipelem` takes off the first component, and the rest begins with the next one. -/
theorem skipelemInto_components (path : List UInt8) (name : Nat → UInt8) :
    components path = [] ∧ skipelemInto path name = none ∨
    ∃ elem rest, components path = elem :: components rest ∧
      skipelemInto path name = some (rest, store name elem) ∧ (rest = [] ↔ components rest = []) ∧
      rest.length < path.length := by
  have nonempty : ∀ path : List UInt8, path.dropWhile (· == slash) = [] ↔ components path = [] := by
    intro path
    rw [← components_dropWhile path]
    have first := head?_dropWhile_not (· == slash) path
    cases eq : path.dropWhile (· == slash) with
    | nil => exact iff_of_true rfl rfl
    | cons byte tail =>
      rw [eq] at first
      rw [components_cons first]
      exact iff_of_false (cons_ne_nil _ _) (cons_ne_nil _ _)
  have first := head?_dropWhile_not (· == slash) path
  have shorter := length_dropWhile_le (· == slash) path
  rw [← components_dropWhile path]
  unfold skipelemInto
  cases eq : path.dropWhile (· == slash) with
  | nil => exact .inl ⟨rfl, if_pos rfl⟩
  | cons byte tail =>
    rw [eq] at first shorter
    refine .inr ⟨_, _, ?_, if_neg (cons_ne_nil _ _), ?_, ?_⟩
    · rw [components_cons first, components_dropWhile]
    · rw [nonempty, components_dropWhile]
    · rw [dropWhile_cons, if_pos (by simpa using first)]
      have less := length_dropWhile_le (· == slash) (tail.dropWhile (· != slash))
      have less' := length_dropWhile_le (· != slash) tail
      rw [length_cons] at shorter
      omega

/-- The calls of `skipelem` one after the other copy the components, each over the one before. -/
theorem elements_eq (name : Nat → UInt8) (enough : path.length < fuel) :
    elements fuel path name = some ((components path).scanl store name).tail := by
  induction fuel generalizing path name with
  | zero => omega
  | succ fuel ih =>
    unfold elements
    rcases skipelemInto_components path name with ⟨none, stops⟩ |
      ⟨elem, rest, parts, goes, _, shorter⟩
    · rw [none, stops]
      rfl
    · rw [parts, goes]
      dsimp only
      rw [ih (store name elem) (by omega), scanl_cons, tail_cons]
      cases components rest <;> simp

variable (sb devsw)

/-- `namex` along components. -/
def follow (parent : Bool) :
    Task → Nat → List (List UInt8) → Except Halt (Task × Option (Nat × (Nat → UInt8)))
  | t, ip, [] => namexEnd sb parent t ip
  | t, ip, elem :: rest => do
    let t ← t.ilock sb ip
    if (t.fs.inode ip).type ≠ T_DIR then do
      let t ← t.iunlockput sb ip
      .ok (t, none)
    else if parent ∧ rest = [] then do
      let t ← t.iunlock ip
      .ok (t, some (ip, literal (elem.take DIRSIZ)))
    else do
      let (t, next) ← t.run (dirlookup sb devsw t.fs ip (literal (elem.take DIRSIZ)))
      let t ← t.iunlockput sb ip
      match next with
      | none => .ok (t, none)
      | some (next, _) => follow parent t next rest

variable {sb devsw}

theorem namexLoop_eq (enough : path.length ≤ fuel) :
    namexLoop sb devsw parent fuel t ip path = follow sb devsw parent t ip (components path) := by
  induction fuel generalizing t ip path with
  | zero =>
    rw [length_eq_zero_iff.mp (Nat.le_zero.mp enough)]
    rfl
  | succ fuel ih =>
    unfold namexLoop
    rw [skipelem_eq]
    rcases skipelemInto_components path fun _ => 0 with ⟨none, stops⟩ |
      ⟨elem, rest, parts, goes, last, shorter⟩
    · rw [none, stops]
      rfl
    · rw [parts, goes, store_zero, follow]
      dsimp only
      refine bind_congr fun u => if_congr Iff.rfl rfl (if_congr (by rw [last]) rfl ?_)
      refine bind_congr fun looked => bind_congr fun v => ?_
      cases looked.2 with
      | none => rfl
      | some found => exact ih (by omega)

/-- Where `namex` begins. -/
def origin (t : Task) (cwd : Nat) (path : List UInt8) : Except Halt (Task × Nat) :=
  t.run (if path.head? = some slash then iget t.fs ROOTINO else .ok (idup t.fs cwd, cwd))

theorem namex_eq {cwd : Nat} : namex sb devsw t cwd path parent =
    (origin t cwd path >>= fun start =>
      follow sb devsw parent start.1 start.2 (components path)) := by
  unfold namex
  congr 1
  funext start
  exact namexLoop_eq (Nat.le_refl _)

variable (sb) in
/-- The end of `nameiparent` with the result of the walk to the parent. -/
def stopAt (last : List UInt8) (reached : Task × Option (Nat × (Nat → UInt8))) :
    Except Halt (Task × Option (Nat × (Nat → UInt8))) :=
  match reached.2 with
  | none => .ok (reached.1, none)
  | some dp => do
    let t ← reached.1.ilock sb dp.1
    if (t.fs.inode dp.1).type ≠ T_DIR then do
      let t ← t.iunlockput sb dp.1
      .ok (t, none)
    else do
      let t ← t.iunlock dp.1
      .ok (t, some (dp.1, literal (last.take DIRSIZ)))

theorem follow_parent (first : List (List UInt8)) (last : List UInt8) :
    follow sb devsw true t ip (first ++ [last]) = follow sb devsw false t ip first >>=
      stopAt sb last := by
  induction first generalizing t ip with
  | nil => simp [follow, namexEnd, stopAt, bind, Except.bind]
  | cons elem rest ih =>
    simp only [cons_append, follow, bind, Except.bind]
    cases t.ilock sb ip with
    | error => rfl
    | ok u =>
      dsimp only
      split
      · cases u.iunlockput sb ip <;> rfl
      rw [if_neg (by simp), if_neg (by simp)]
      cases u.run (dirlookup sb devsw u.fs ip (literal (elem.take DIRSIZ))) with
      | error => rfl
      | ok found =>
        dsimp only
        cases found.1.iunlockput sb ip with
        | error => rfl
        | ok v =>
          dsimp only
          cases found.2 with
          | none => rfl
          | some next => exact ih

theorem namei_congr {cwd : Nat} {path' : List UInt8} (start : path'.head? = path.head?)
    (parts : components path' = components path) :
    namei sb devsw t cwd path' = namei sb devsw t cwd path := by
  unfold namei
  rw [namex_eq, namex_eq, origin, origin, start, parts]

/-- `skipelem` gives the components of a path one after the other. `nameiparent` walks along all but
the last and gives that one, if there is any. Slashes in front of another one, and those at the end
of a path that is not empty, do not count. -/
theorem path_components (path : List UInt8) :
    (∀ name fuel, path.length < fuel →
      elements fuel path name = some ((components path).scanl store name).tail) ∧
    ∀ sb devsw t cwd,
      (components path = [] → nameiparent sb devsw t cwd path =
        origin t cwd path >>= fun start => namexEnd sb true start.1 start.2) ∧
      (∀ first last, components path = first ++ [last] → nameiparent sb devsw t cwd path =
        origin t cwd path >>= fun start =>
          follow sb devsw false start.1 start.2 first >>= stopAt sb last) ∧
      (∀ before after, path = before ++ slash :: after →
        namei sb devsw t cwd (before ++ slash :: slash :: after) = namei sb devsw t cwd path) ∧
      (path ≠ [] → namei sb devsw t cwd (path ++ [slash]) = namei sb devsw t cwd path) := by
  refine ⟨fun name fuel => elements_eq name, fun sb devsw t cwd =>
      ⟨fun none => ?_, fun first last parts => ?_,
    fun before after isPath => ?_, fun more => namei_congr ?_ ?_⟩⟩
  · rw [nameiparent, namex_eq, none]
    rfl
  · rw [nameiparent, namex_eq, parts]
    simp only [follow_parent]
  · rw [isPath]
    apply namei_congr
    · cases before <;> rfl
    · rw [components_slash, components_slash]
      exact congrArg _ (components_slash [] after)
  · rw [head?_append_of_ne_nil _ more]
  · rw [components_slash]
    exact append_nil _

/-- The current directory, in slot 1, is not the root. -/
def elsewhere : Task :=
  ⟨⟨fun _ _ => 0, fun k => ⟨⟨T_DIR, 0, 0, 1, 0, fun _ => 0⟩, 4 + k, k % 2, true⟩, []⟩, [], 1, 0⟩

/-- A slash behind the empty path leads to the root. -/
theorem slash_empty : (namei smallSb noDevices elsewhere 1 []).toOption.map Prod.snd =
    some (some 1) ∧
    (namei smallSb noDevices elsewhere 1 [slash]).toOption.map Prod.snd = some (some 0) :=
      ⟨rfl, rfl⟩

end Xv6.Fs.Names
