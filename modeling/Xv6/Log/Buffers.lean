import Mathlib.Data.List.Dedup
import Mathlib.Data.List.Perm.Subperm
import Xv6.Log.Relation

/- The `NBUF` buffers of bio.c. A step that reads a block needs a buffer for it, and a buffer that
is dirty or that an operation holds is not given to another block. -/
namespace Xv6.Log

open Bytes GroupStore List

variable {g : Layout} {s : Sys} {a : Store Nat Block} {event : Event} {b : Nat}

/-- The blocks that the next step of `commit` or `recover_from_log` reads with `bread`. -/
def reads (g : Layout) (s : Sys) : Pc → List Nat
  | .readHead | .writeHead | .erase => [g.start]
  | .writeLog tail | .install tail =>
    if tail < s.lh.n then [g.start + tail + 1, s.lh.block tail] else []
  | .entry | .clear | .finish => []

def touched (g : Layout) (s : Sys) : Event → List Nat
  | .logCheck _ b _ => [b]
  | .bread b => [b]
  | .step agent => ((s.pc agent).map (reads g s)).getD []
  | _ => []

/-- The blocks whose buffers `bget` passes over: the dirty ones, which only `log_write` makes and
records in `log.lh`, and those that an operation holds. -/
def pinned (s : Sys) : List Nat :=
  ((range s.lh.n).map s.lh.block).filter (fun b => (s.cache b).any Buf.dirty) ++
    s.active.filterMap fun p => (s.pending p).map Prod.fst

/-- `bget` does not panic: each block that the step reads has a buffer besides the pinned ones. -/
def Buffered (g : Layout) (s : Sys) (event : Event) : Prop :=
  touched g s event ≠ [] → (pinned s ++ touched g s event).dedup.length ≤ NBUF

instance (g : Layout) (s : Sys) (event : Event) : Decidable (Buffered g s event) :=
  inferInstanceAs (Decidable (_ → _))

/-- A step with `NBUF` buffers; the panic of `bget` stops the machine before the step writes. -/
def bufferedStep (g : Layout) (s : Sys) (event : Event) : Option Sys :=
  if Buffered g s event then step g s event else none

theorem bufferedStep_eq_some {t : Sys} (taken : bufferedStep g s event = some t) :
    Buffered g s event ∧ step g s event = some t := by
  unfold bufferedStep at taken
  split at taken
  · exact ⟨‹_›, taken⟩
  · cases taken

/-- The buffers of a whole group are dirty until it is installed, so a step that reads a block of
the log area leaves one of the buffers to it. -/
theorem Gathering.length_lt_NBUF (holds : Gathering g s a)
    (home : ∀ i < s.lh.n, g.home (s.lh.block i)) (buffered : Buffered g s event)
    (read : b ∈ touched g s event) (log : ¬ g.home b) : s.lh.n < NBUF := by
  have entries : ((range s.lh.n).map s.lh.block).Nodup := by
    apply Nodup.map_on _ nodup_range
    intro i first j second same
    exact holds.distinct i (mem_range.mp first) j (mem_range.mp second) same
  have nodup : (b :: (range s.lh.n).map s.lh.block).Nodup := by
    refine nodup_cons.mpr ⟨fun entry => ?_, entries⟩
    obtain ⟨i, inside, rfl⟩ := mem_map.mp entry
    exact log (home i (mem_range.mp inside))
  have subset : b :: (range s.lh.n).map s.lh.block ⊆ (pinned s ++ touched g s event).dedup := by
    intro c member
    rw [mem_dedup, mem_append]
    rcases mem_cons.mp member with rfl | entry
    · exact .inr read
    obtain ⟨i, inside, same⟩ := mem_map.mp entry
    obtain ⟨buf, cached, flag⟩ := (holds.dirty c).mpr ⟨i, mem_range.mp inside, same⟩
    refine .inl (mem_append_left _ (mem_filter.mpr ⟨entry, ?_⟩))
    rw [cached]
    exact flag
  have count := (nodup.subperm subset).length_le
  rw [length_cons, length_map, length_range] at count
  exact Nat.lt_of_succ_le (Nat.le_trans count (buffered (ne_nil_of_mem read)))

end Xv6.Log
