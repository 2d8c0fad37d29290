import Xv6.Log.Cache
import Xv6.Lib.Writes

/- The header block on disk: what `write_head` leaves in it and what `recover_from_log` makes of
it. -/
namespace Xv6.Log

open Bytes Function

variable {g : Layout} {disk : Nat → Block}

theorem getWord_putHeader_count (hb : Block) (lh : LogHeader) (fits : lh.n < 2 ^ 32) :
    getWord (putHeader hb lh) 0 = lh.n := by
  have kept := getWord_setWords_outside (setWord hb 0 lh.n) 1 lh.n lh.block
    (.inl Nat.zero_lt_one)
  rwa [getWord_setWord_self _ _ _ fits] at kept

theorem getWord_putHeader_entry (hb : Block) (lh : LogHeader)
    (small : ∀ i < lh.n, lh.block i < 2 ^ 32) (i : Nat) (inside : i < lh.n) :
    getWord (putHeader hb lh) (i + 1) = lh.block i :=
  getWord_setWords _ _ _ _ small inside

theorem getWord_putHeader_empty (hb : Block) (lh : LogHeader) (empty : lh.n = 0) :
    getWord (putHeader hb lh) 0 = 0 := by
  rw [getWord_putHeader_count hb lh (by omega), empty]

/-- The number of committed blocks that the header on disk names. -/
def headCount (g : Layout) (disk : Nat → Block) : Nat := getWord (disk g.start) 0

def headBlock (g : Layout) (disk : Nat → Block) (i : Nat) : Nat := getWord (disk g.start) (i + 1)

/-- The home writes that the log on disk stands for. -/
def logged (g : Layout) (disk : Nat → Block) : List (Nat × Block) :=
  (List.range (headCount g disk)).map (fun i => (headBlock g disk i, disk (g.start + i + 1)))

/-- The home blocks that recovery will produce from this disk. -/
def redo (g : Layout) (disk : Nat → Block) : Nat → Block := Writes.apply disk (logged g disk)

theorem logged_eq_nil (empty : headCount g disk = 0) : logged g disk = [] := by
  simp only [logged, empty, List.range_zero, List.map_nil]

theorem redo_of_empty (empty : headCount g disk = 0) : redo g disk = disk := by
  simp only [redo, logged_eq_nil empty, Writes.apply_nil]

/-- The log area of the disk: its header and the data blocks the header can name. -/
def SameLog (g : Layout) (count : Nat) (left right : Nat → Block) : Prop :=
  left g.start = right g.start ∧ ∀ i < count, left (g.start + i + 1) = right (g.start + i + 1)

theorem logged_congr {left right : Nat → Block} (same : SameLog g (headCount g left) left right) :
    logged g left = logged g right := by
  have count : headCount g right = headCount g left := by unfold headCount; rw [same.1]
  unfold logged
  rw [count]
  apply List.map_congr_left
  intro i member
  have inside := List.mem_range.mp member
  rw [same.2 i inside]
  unfold headBlock
  rw [same.1]

/-- A header that recovery can follow: its blocks are home blocks and its copies fit the log. -/
structure HeaderOk (g : Layout) (disk : Nat → Block) : Prop where
  fits : headCount g disk + 1 ≤ g.size
  small : headCount g disk ≤ LOGSIZE
  home : ∀ i < headCount g disk, g.home (headBlock g disk i)

theorem HeaderOk.of_empty (empty : headCount g disk = 0) : HeaderOk g disk :=
  ⟨by have := g.pos; omega, by omega, by omega⟩

theorem Layout.home.ne_log {b i : Nat} (home : g.home b) (inside : i < g.size) :
    g.start + i ≠ b := by
  have := home.1
  omega

theorem Layout.home.ne_logBlock {b i : Nat} (home : g.home b) (inside : i + 1 < g.size) :
    g.start + i + 1 ≠ b :=
  home.ne_log inside

theorem Layout.home.ne_header {b : Nat} (home : g.home b) : b ≠ g.start :=
  (home.ne_log g.pos).symm

/-- Changing home blocks leaves the log area alone. -/
theorem sameLog_update {b count : Nat} (home : g.home b) (fits : count + 1 ≤ g.size)
    (data : Block) :
    SameLog g count disk (update disk b data) := by
  refine ⟨?_, ?_⟩
  · exact (update_of_ne home.ne_header.symm _ _).symm
  · intro i inside
    exact (update_of_ne (home.ne_logBlock (by omega)) _ _).symm

end Xv6.Log
