import Xv6.Lib.Writes

/- A store whose operations become durable in groups: the abstract purpose of a redo log.
A crash gives back the state of the last commit, and commits happen between operations. -/
namespace GroupStore

variable {A V : Type} [DecidableEq A]

/-- The initial content, the writes since then that have not been lost, how many of them are
durable, and the operations that have begun and not ended. -/
structure Store (A V : Type) where
  base : A → V
  history : List (A × V)
  durable : Nat
  active : List Nat

inductive Action (A V : Type) where
  | start (operation : Nat)
  | write (operation : Nat) (address : A) (value : V)
  | finish (operation : Nat)
  | commit
  | crash

namespace Store

def init (base : A → V) : Store A V := ⟨base, [], 0, []⟩

/-- The content as the operations see it. -/
def current (store : Store A V) : A → V := Writes.apply store.base store.history

/-- The content at the last commit. -/
def committed (store : Store A V) : A → V :=
  Writes.apply store.base (store.history.take store.durable)

/-- A commit waits until no operation is active, so it never splits one. -/
def step (store : Store A V) : Action A V → Option (Store A V)
  | .start operation =>
    if operation ∈ store.active then none
    else some { store with active := operation :: store.active }
  | .write operation address value =>
    if operation ∈ store.active then
      some { store with history := store.history ++ [(address, value)] }
    else none
  | .finish operation =>
    if operation ∈ store.active then
      some { store with active := store.active.erase operation }
    else none
  | .commit =>
    if store.active = [] then some { store with durable := store.history.length } else none
  | .crash => some { store with history := store.history.take store.durable, active := [] }

theorem committed_of_all {store : Store A V} (all : store.durable = store.history.length) :
    store.committed = store.current := by
  unfold committed current
  rw [all, List.take_length]

theorem current_write (store : Store A V) (address : A) (value : V) :
    current { store with history := store.history ++ [(address, value)] } =
      Function.update store.current address value :=
  Writes.apply_snoc _ _ _ _

theorem committed_write {store : Store A V} (bound : store.durable ≤ store.history.length)
    (address : A) (value : V) :
    committed { store with history := store.history ++ [(address, value)] } = store.committed := by
  unfold committed
  dsimp only
  rw [List.take_append_of_le_length bound]

theorem committed_crash (store : Store A V) :
    committed { store with history := store.history.take store.durable, active := [] } =
      store.committed := by
  unfold committed
  dsimp only
  rw [List.take_take, Nat.min_self]

end Store

end GroupStore
