import Xv6.Lib.Rotation
import Xv6.Process.Effect

/- How the scheduler chooses: `pickthread`, `exec_MLFQ`, `choose_lowpass` and the body of the loop
in `scheduler` for a RUNNABLE process that the scan meets. -/
namespace Xv6.Process.Dispatch

open Function Outcome Option List

variable {i rounds : Nat}

/-- How a choice can go wrong: an access to something that is not there, or a loop without an
end. -/
inductive Failure where
  | undefined
  | endless
deriving DecidableEq

def isRunnable (k : Kernel) : Option Nat → Bool
  | none => false
  | some p => (k.proc p).state == .runnable

/-- The members that `pickthread` goes through: the workers, then the master. -/
def memberAt (k : Kernel) (master i : Nat) : Option Nat :=
  if i = NTHRE then some master else (k.proc master).workerthread i

/-- The loop of `pickthread`. The index goes through all `NTHRE + 1` values, so that a loop which
has not ended after as many rounds never does. -/
def pickLoop (k : Kernel) (master : Nat) : Nat → Nat → Except Failure (Kernel × Nat)
  | 0, _ => .error .endless
  | rounds + 1, i =>
    let i := (i + 1) % (NTHRE + 1)
    match (memberAt k master i).filter fun w => isRunnable k (some w) with
    | some w => .ok (k.setProc master { k.proc master with curthread := i }, w)
    | none => if i ≠ (k.proc master).curthread then pickLoop k master rounds i else .ok (k, master)

def pickthread (k : Kernel) (master : Nat) : Except Failure (Kernel × Nat) :=
  if (k.proc master).threadcnt = 0 then .ok (k, master)
  else pickLoop k master (NTHRE + 1) (k.proc master).curthread

/-- A process stands for its group. -/
def pick (k : Kernel) (p : Nat) : Except Failure (Kernel × Nat) :=
  if (k.proc p).isthread then pickthread k p else .ok (k, p)

/-- What the search through a queue finds: the slot, and the process in it. It looks at one slot
less than there are. -/
def searchQueue (k : Kernel) (queue : FQ) : Option (Nat × Nat) :=
  (Scan.first (fun j => isRunnable k (queue.holdingproc ((queue.current + j) % NPROC)))
    (NPROC - 1) 0).bind fun j =>
      let pos := (queue.current + j) % NPROC
      (queue.holdingproc pos).map fun p => (pos, p)

/-- `exec_MLFQ` on some of the levels. -/
def execLevels (k : Kernel) : List Nat → Except Failure (Kernel × Option Nat)
  | [] => .ok (k, none)
  | level :: rest =>
    if (k.queues level).total = 0 then execLevels k rest
    else
      match searchQueue k (k.queues level) with
      | none => execLevels k rest
      | some (pos, p) => do
        let (k, w) ← pick (k.setQueue level { k.queues level with current := pos + 1 }) p
        .ok (k, some w)

def exec_MLFQ (k : Kernel) : Except Failure (Kernel × Option Nat) := execLevels k [0, 1, 2]

/-- The loop of `choose_lowpass`; it starts with entry 0, whatever its stride. -/
def lowest (k : Kernel) : Except Failure Nat :=
  (List.range NPROC).foldlM (fun select j =>
    if (k.strides j).stride = 0 then .ok select
    else
      match (k.strides j).proc with
      | none => .error .undefined
      | some p =>
        if (k.proc p).state ≠ .runnable then .ok select
        else if (k.strides j).pass < (k.strides select).pass then .ok j else .ok select) 0

/-- `choose_lowpass`; its argument is not used. -/
def choose_lowpass (k : Kernel) : Except Failure (Kernel × Option Nat) := do
  let select ← lowest k
  -- `tmp` points behind the array, and the passes of 64 entries there are written
  if (k.strides select).pass > 200000000 then .error .undefined
  else if select = 0 then exec_MLFQ k
  else
    match (k.strides select).proc with
    | none => .error .undefined
    | some p => do
      let (k, w) ← pick k p
      .ok (k, some w)

/-- Entry 0 pays for a search that found nothing. -/
def charge (k : Kernel) : Kernel :=
  k.setStride 0 { k.strides 0 with pass := int ((k.strides 0).pass + (k.strides 0).stride) }

/-- The process that `scheduler` takes when its scan meets the RUNNABLE process `p`. -/
def choose (k : Kernel) (p : Nat) : Except Failure (Kernel × Nat) := do
  match ← choose_lowpass k with
  | (k, some w) => .ok (k, w)
  | (k, none) => do
    let (k, chosen) ← choose_lowpass (charge k)
    .ok (k, chosen.getD p)

/-- The body of the loop in `scheduler`, up to the switch. -/
def scheduler (k : Kernel) (p : Nat) : Except Failure (Kernel × Nat) := do
  let (k, chosen) ← choose k p
  .ok (k.setProc chosen { k.proc chosen with state := .running }, chosen)

variable {k t u : Kernel} {p q w master : Nat} {chosen : Option Nat}

theorem isRunnable_some : isRunnable k (some p) = true ↔ (k.proc p).state = .runnable := by
  rw [isRunnable, beq_iff_eq]

/-- A choice moves the places where the next searches begin. -/
def Looked (k t : Kernel) : Prop :=
  ∃ (curthread : Nat → Nat) (current : Nat → Nat), t = { k with
      proc := fun q => { k.proc q with curthread := curthread q }
      queues := fun level => { k.queues level with current := current level } } ∧
    ∀ q, curthread q = (k.proc q).curthread ∨ curthread q ≤ NTHRE

theorem Looked.refl (k : Kernel) : Looked k k :=
  ⟨fun q => (k.proc q).curthread, fun level => (k.queues level).current, rfl, fun _ => .inl rfl⟩

theorem Looked.trans (first : Looked k u) (second : Looked u t) : Looked k t := by
  obtain ⟨curthread, current, rfl, old⟩ := first
  obtain ⟨curthread', current', rfl, new⟩ := second
  refine ⟨curthread', current', rfl, fun q => ?_⟩
  rcases new q with same | low
  · rw [same]
    exact old q
  · exact .inr low

theorem Looked.strides (looked : Looked k t) : t.strides = k.strides := by
  obtain ⟨_, _, rfl, _⟩ := looked
  rfl

theorem Looked.state (looked : Looked k t) (q : Nat) : (t.proc q).state = (k.proc q).state := by
  obtain ⟨_, _, rfl, _⟩ := looked
  rfl

theorem looked_curthread (low : i ≤ NTHRE) :
    Looked k (k.setProc p { k.proc p with curthread := i }) := by
  refine ⟨update (fun q => (k.proc q).curthread) p i, fun level => (k.queues level).current, ?_, ?_⟩
  · have proc : update k.proc p { k.proc p with curthread := i } = fun q =>
        { k.proc q with curthread := update (fun q => (k.proc q).curthread) p i q } := by
      funext q
      by_cases same : q = p
      · rw [same, update_self, update_self]
      · rw [update_of_ne same, update_of_ne same]
    rw [Kernel.setProc, proc]
  · intro q
    by_cases same : q = p
    · rw [same, update_self]
      exact .inr low
    · rw [update_of_ne same]
      exact .inl rfl

theorem looked_current (k : Kernel) (level current : Nat) :
    Looked k (k.setQueue level { k.queues level with current := current }) := by
  refine ⟨fun q => (k.proc q).curthread,
    update (fun level => (k.queues level).current) level current, ?_, fun _ => .inl rfl⟩
  have queues : update k.queues level { k.queues level with current := current } = fun l =>
      { k.queues l with
        current := update (fun level => (k.queues level).current) level current l } := by
    funext l
    by_cases same : l = level
    · rw [same, update_self, update_self]
    · rw [update_of_ne same, update_of_ne same]
  rw [Kernel.setQueue, queues]

theorem pickLoop_looked (ran : pickLoop k master rounds i = .ok (t, w)) : Looked k t := by
  induction rounds generalizing i with
  | zero => cases ran
  | succ rounds ih =>
    rw [pickLoop] at ran
    dsimp only at ran
    split at ran
    · cases ran
      exact looked_curthread (Nat.lt_succ_iff.mp (Nat.mod_lt _ (Nat.succ_pos NTHRE)))
    · split at ran
      · exact ih ran
      · cases ran
        exact Looked.refl k

theorem pick_looked (ran : pick k p = .ok (t, w)) : Looked k t := by
  unfold pick pickthread at ran
  split at ran
  · split at ran
    · cases ran
      exact Looked.refl k
    · exact pickLoop_looked ran
  · cases ran
    exact Looked.refl k

theorem execLevels_looked {levels : List Nat} (ran : execLevels k levels = .ok (t, chosen)) :
    Looked k t := by
  induction levels with
  | nil =>
    cases ran
    exact Looked.refl k
  | cons level rest ih =>
    rw [execLevels] at ran
    split at ran
    · exact ih ran
    · split at ran
      · exact ih ran
      · obtain ⟨⟨u, v⟩, picked, ran⟩ := bind_eq_ok.mp ran
        cases ran
        exact (looked_current k level _).trans (pick_looked picked)

theorem choose_lowpass_looked (ran : choose_lowpass k = .ok (t, chosen)) : Looked k t := by
  obtain ⟨select, _, ran⟩ := bind_eq_ok.mp ran
  dsimp only at ran
  split at ran
  · cases ran
  split at ran
  · exact execLevels_looked ran
  · split at ran
    · cases ran
    · obtain ⟨⟨u, v⟩, picked, ran⟩ := bind_eq_ok.mp ran
      cases ran
      exact pick_looked picked

/-- A choice that is made moves the places of the searches, and entry 0 may have paid. -/
theorem choose_looked (ran : choose k p = .ok (t, w)) : ∃ strides, Looked { k with strides } t := by
  obtain ⟨⟨u, found⟩, first, ran⟩ := bind_eq_ok.mp ran
  have before := choose_lowpass_looked first
  cases found with
  | some v =>
    cases ran
    exact ⟨k.strides, before⟩
  | none =>
    obtain ⟨⟨v, chosen⟩, second, ran⟩ := bind_eq_ok.mp ran
    cases ran
    obtain ⟨curthread, current, rfl, old⟩ := before
    obtain ⟨curthread', current', rfl, new⟩ := choose_lowpass_looked second
    refine ⟨(charge k).strides, curthread', current', rfl, fun q => ?_⟩
    rcases new q with same | low
    · rw [same]
      exact old q
    · exact .inr low

/-- What the choice relies on: `pickthread` begins inside its circle, and the entries in use, with
entry 0, have a process. -/
structure Ready (k : Kernel) : Prop where
  curthread : ∀ p, (k.proc p).curthread ≤ NTHRE
  first : (k.strides 0).proc ≠ none
  entries : ∀ j, (k.strides j).stride ≠ 0 → (k.strides j).proc ≠ none

theorem Ready.looked (ready : Ready k) (looked : Looked k t) : Ready t := by
  obtain ⟨curthread, _, rfl, low⟩ := looked
  refine ⟨fun p => ?_, ready.first, ready.entries⟩
  rcases low p with same | low
  · show curthread p ≤ NTHRE
    rw [same]
    exact ready.curthread p
  · exact low

theorem Ready.charge (ready : Ready k) : Ready (charge k) := by
  refine ⟨ready.curthread, ?_, ?_⟩
  · show (update k.strides 0 _ 0).proc ≠ none
    rw [update_self]
    exact ready.first
  intro j active
  change (update k.strides 0 _ j).stride ≠ 0 at active
  show (update k.strides 0 _ j).proc ≠ none
  by_cases same : j = 0
  · rw [same, update_self]
    exact ready.first
  · rw [update_of_ne same] at active ⊢
    exact ready.entries j active

/-- The RUNNABLE member at a place, with the place. -/
def candidate (k : Kernel) (master i : Nat) : Option (Nat × Nat) :=
  ((memberAt k master i).filter fun w => isRunnable k (some w)).map fun w => (i, w)

theorem candidate_eq_some {j : Nat} : candidate k master i = some (j, w) ↔
    i = j ∧ memberAt k master i = some w ∧ (k.proc w).state = .runnable := by
  simp only [candidate, map_eq_some_iff, filter_eq_some_iff, isRunnable_some, Prod.mk.injEq]
  exact ⟨fun ⟨_, good, same, rfl⟩ => ⟨same, good⟩, fun ⟨same, good⟩ => ⟨w, good, same, rfl⟩⟩

/-- The RUNNABLE members in the order of the search, with their places. -/
def candidates (k : Kernel) (master : Nat) : List (Nat × Nat) :=
  (Rotation.ring (NTHRE + 1) (k.proc master).curthread).filterMap (candidate k master)

theorem mem_candidates : (i, w) ∈ candidates k master ↔
    i ≤ NTHRE ∧ memberAt k master i = some w ∧ (k.proc w).state = .runnable := by
  simp only [candidates, mem_filterMap, candidate_eq_some, Rotation.ring_perm.mem_iff, mem_range,
    Nat.lt_succ_iff]
  exact ⟨fun ⟨_, low, same, good⟩ => same ▸ ⟨low, good⟩, fun ⟨low, good⟩ => ⟨i, low, rfl, good⟩⟩

/-- The master stays at its place when there is no candidate. -/
def takeFirst (k : Kernel) (master : Nat) : List (Nat × Nat) → Kernel × Nat
  | [] => (k, master)
  | (i, w) :: _ => (k.setProc master { k.proc master with curthread := i }, w)

theorem pickLoop_succ : pickLoop k master (rounds + 1) i =
    match candidate k master ((i + 1) % (NTHRE + 1)) with
    | some found => .ok (takeFirst k master [found])
    | none =>
      if (i + 1) % (NTHRE + 1) ≠ (k.proc master).curthread then
        pickLoop k master rounds ((i + 1) % (NTHRE + 1))
      else .ok (k, master) := by
  rw [pickLoop, candidate]
  dsimp only
  cases (memberAt k master ((i + 1) % (NTHRE + 1))).filter fun w => isRunnable k (some w) <;> rfl

section

variable (low : (k.proc master).curthread ≤ NTHRE)
include low

/-- After `s` rounds in vain the loop goes on with the rest of the ring. -/
theorem pickLoop_eq {s r : Nat} (left : s + r = NTHRE) :
    pickLoop k master (r + 1) (((k.proc master).curthread + s) % (NTHRE + 1)) =
      .ok (takeFirst k master (((List.range' (s + 1) (r + 1)).map fun j =>
        ((k.proc master).curthread + j) % (NTHRE + 1)).filterMap (candidate k master))) := by
  induction r generalizing s with
  | zero =>
    have back :
        ((k.proc master).curthread + (s + 1)) % (NTHRE + 1) = (k.proc master).curthread := by
      unfold NTHRE at *
      omega
    rw [pickLoop_succ, Nat.mod_add_mod, Nat.add_assoc, range'_one, map_singleton, back]
    cases found : candidate k master (k.proc master).curthread with
    | some _ =>
      rw [filterMap_cons_some found]
      rfl
    | none =>
      rw [filterMap_cons_none found]
      exact if_neg (absurd rfl)
  | succ r ih =>
    have away :
        ((k.proc master).curthread + (s + 1)) % (NTHRE + 1) ≠ (k.proc master).curthread := by
      unfold NTHRE at *
      omega
    rw [pickLoop_succ, Nat.mod_add_mod, Nat.add_assoc, range'_succ, map_cons]
    cases found : candidate k master (((k.proc master).curthread + (s + 1)) % (NTHRE + 1)) with
    | some _ =>
      rw [filterMap_cons_some found]
      rfl
    | none =>
      rw [filterMap_cons_none found, ← ih (by omega)]
      exact if_pos away

theorem pickthread_eq (group : (k.proc master).threadcnt ≠ 0) :
    pickthread k master = .ok (takeFirst k master (candidates k master)) := by
  have loop := pickLoop_eq low (Nat.zero_add NTHRE)
  have start : ((k.proc master).curthread + 0) % (NTHRE + 1) = (k.proc master).curthread :=
    Nat.mod_eq_of_lt (Nat.lt_succ_of_le low)
  rw [start] at loop
  rw [pickthread, if_neg group]
  exact loop

theorem pickthread_returns : ∃ t w, pickthread k master = .ok (t, w) := by
  by_cases group : (k.proc master).threadcnt = 0
  · exact ⟨k, master, if_pos group⟩
  · exact ⟨_, _, pickthread_eq low group⟩

end

/-- The search reaches a RUNNABLE master at the latest. -/
theorem candidates_cons (runnable : (k.proc master).state = .runnable) :
    ∃ i w rest, candidates k master = (i, w) :: rest := by
  have own : (NTHRE, master) ∈ candidates k master :=
    mem_candidates.mpr ⟨Nat.le_refl _, if_pos rfl, runnable⟩
  obtain ⟨first, rest, eq⟩ := exists_cons_of_ne_nil (ne_nil_of_mem own)
  exact ⟨first.1, first.2, rest, eq⟩

/-- `pickthread` ends, and a RUNNABLE master gives a RUNNABLE member. -/
theorem pickthread_ends (runnable : (k.proc master).state = .runnable)
    (low : (k.proc master).curthread ≤ NTHRE) :
    ∃ t w, pickthread k master = .ok (t, w) ∧ Looked k t ∧ (k.proc w).state = .runnable := by
  by_cases group : (k.proc master).threadcnt = 0
  · exact ⟨k, master, if_pos group, Looked.refl k, runnable⟩
  obtain ⟨i, w, rest, eq⟩ := candidates_cons runnable
  obtain ⟨small, _, good⟩ := mem_candidates.mp (eq ▸ mem_cons_self)
  rw [pickthread_eq low group, eq]
  exact ⟨_, w, rfl, looked_curthread small, good⟩

theorem pick_ends (ready : Ready k) (runnable : (k.proc p).state = .runnable) :
    ∃ t w, pick k p = .ok (t, w) ∧ Looked k t ∧ (k.proc w).state = .runnable ∧
      ((k.proc p).isthread = false → w = p) := by
  unfold pick
  cases thread : (k.proc p).isthread with
  | true =>
    obtain ⟨t, w, result, looked, good⟩ := pickthread_ends runnable (ready.curthread p)
    exact ⟨t, w, result, looked, good, fun impossible => nomatch impossible⟩
  | false => exact ⟨k, p, rfl, Looked.refl k, runnable, fun _ => rfl⟩

/-- The slots that the search in a queue looks at; the one before `current` is not among them. -/
def Searched (queue : FQ) (i : Nat) : Prop := ∃ j < NPROC - 1, i = (queue.current + j) % NPROC

theorem searchQueue_some {queue : FQ} {pos : Nat} (found : searchQueue k queue = some (pos, p)) :
    Searched queue pos ∧ queue.holdingproc pos = some p ∧ (k.proc p).state = .runnable := by
  obtain ⟨j, first, held⟩ := bind_eq_some_iff.mp found
  obtain ⟨q, held, same⟩ := map_eq_some_iff.mp held
  cases same
  obtain ⟨_, inside, good, _⟩ := Scan.first_eq_some first
  rw [held] at good
  exact ⟨⟨j, by omega, rfl⟩, held, isRunnable_some.mp good⟩

theorem searchQueue_none {queue : FQ} (nothing : searchQueue k queue = none)
    (searched : Searched queue i) (held : queue.holdingproc i = some p) :
    (k.proc p).state ≠ .runnable := by
  obtain ⟨j, inside, rfl⟩ := searched
  intro runnable
  cases first : Scan.first (fun j => isRunnable k (queue.holdingproc ((queue.current + j) % NPROC)))
      (NPROC - 1) 0 with
  | none =>
    have skipped := Scan.first_eq_none first j (Nat.zero_le j) (by omega)
    rw [held, isRunnable_some.mpr runnable] at skipped
    cases skipped
  | some found =>
    obtain ⟨_, _, good, _⟩ := Scan.first_eq_some first
    rw [searchQueue, first, bind_some] at nothing
    rw [map_eq_none_iff.mp nothing] at good
    cases good

/-- Where a process that `exec_MLFQ` found stands, and what it means that it found none. -/
def Found (k : Kernel) (levels : List Nat) : Option Nat → Prop
  | some w => (k.proc w).state = .runnable ∧ ∃ level ∈ levels, ∃ i p, Searched (k.queues level) i ∧
      (k.queues level).holdingproc i = some p ∧ ((k.proc p).isthread = false → w = p)
  | none => ∀ level ∈ levels, (k.queues level).total ≠ 0 → ∀ i p, Searched (k.queues level) i →
      (k.queues level).holdingproc i = some p → (k.proc p).state ≠ .runnable

theorem execLevels_ends (ready : Ready k) (levels : List Nat) :
    ∃ t chosen, execLevels k levels = .ok (t, chosen) ∧ Looked k t ∧ Found k levels chosen ∧
      (chosen = none → t = k) := by
  induction levels with
  | nil => exact ⟨k, none, rfl, Looked.refl k, fun _ mem => (nomatch mem), fun _ => rfl⟩
  | cons level rest ih =>
    obtain ⟨t, chosen, result, looked, found, same⟩ := ih
    -- the level gives nothing, and the others decide
    have skips (nothing : (k.queues level).total ≠ 0 → searchQueue k (k.queues level) = none) :
        Found k (level :: rest) chosen := by
      cases chosen with
      | some w =>
        obtain ⟨runnable, l, mem, held⟩ := found
        exact ⟨runnable, l, mem_cons_of_mem _ mem, held⟩
      | none =>
        intro l mem total i p searched held
        rcases mem_cons.mp mem with same | mem
        · rw [same] at total searched held
          exact searchQueue_none (nothing total) searched held
        · exact found l mem total i p searched held
    unfold execLevels
    split
    · rename_i empty
      exact ⟨t, chosen, result, looked, skips fun total => absurd empty total, same⟩
    cases search : searchQueue k (k.queues level) with
    | none => exact ⟨t, chosen, result, looked, skips fun _ => search, same⟩
    | some pair =>
      obtain ⟨pos, p⟩ := pair
      obtain ⟨searched, held, runnable⟩ := searchQueue_some search
      have moved := looked_current k level (pos + 1)
      obtain ⟨u, w, picked, after, good, alone⟩ :=
        pick_ends (p := p) (ready.looked moved) runnable
      refine ⟨u, some w, bind_eq_ok.mpr ⟨(u, w), picked, rfl⟩, moved.trans after, ?_,
        fun impossible => (nomatch impossible)⟩
      exact ⟨good, level, mem_cons_self, pos, p, searched, held, alone⟩

/-- The entries that `choose_lowpass` compares. -/
def Candidate (k : Kernel) (j : Nat) : Prop :=
  j = 0 ∨ j < NPROC ∧ (k.strides j).stride ≠ 0 ∧ isRunnable k (k.strides j).proc = true
deriving Decidable

theorem lowest_ends (ready : Ready k) : ∃ select, lowest k = .ok select ∧ Candidate k select ∧
    ∀ j, Candidate k j → (k.strides select).pass ≤ (k.strides j).pass := by
  have loop : ∃ select, lowest k = .ok select ∧ (Candidate k select ∧
      (k.strides select).pass ≤ (k.strides 0).pass ∧
      ∀ j ∈ List.range NPROC, Candidate k j → (k.strides select).pass ≤ (k.strides j).pass) := by
    refine foldlM_total (fun done select => Candidate k select ∧
      (k.strides select).pass ≤ (k.strides 0).pass ∧
      ∀ j ∈ done, Candidate k j → (k.strides select).pass ≤ (k.strides j).pass) ?_
      ⟨.inl rfl, Int.le_refl _, fun _ mem => (nomatch mem)⟩
    rintro done j rest select whole ⟨candidate, first, low⟩
    have inside : j < NPROC := by
      rw [← mem_range, whole]
      exact mem_append_right _ mem_cons_self
    -- the entry stays selected
    have stays (small : Candidate k j → (k.strides select).pass ≤ (k.strides j).pass) :
        ∀ i ∈ done ++ [j], Candidate k i → (k.strides select).pass ≤ (k.strides i).pass := by
      intro i mem active
      rcases mem_append.mp mem with mem | mem
      · exact low i mem active
      · rw [mem_singleton.mp mem] at active ⊢
        exact small active
    by_cases idle : (k.strides j).stride = 0
    · rw [if_pos idle]
      refine ⟨select, rfl, candidate, first, stays ?_⟩
      rintro (zero | ⟨_, active, _⟩)
      · rw [zero]
        exact first
      · exact absurd idle active
    rw [if_neg idle]
    cases held : (k.strides j).proc with
    | none => exact absurd held (ready.entries j idle)
    | some p =>
      dsimp only
      by_cases asleep : (k.proc p).state ≠ .runnable
      · rw [if_pos asleep]
        refine ⟨select, rfl, candidate, first, stays ?_⟩
        rintro (zero | ⟨_, _, runnable⟩)
        · rw [zero]
          exact first
        · rw [held] at runnable
          exact absurd (isRunnable_some.mp runnable) asleep
      · rw [if_neg asleep]
        by_cases less : (k.strides j).pass < (k.strides select).pass
        · rw [if_pos less]
          have here : Candidate k j :=
            .inr ⟨inside, idle, by rw [held]; exact isRunnable_some.mpr (not_not.mp asleep)⟩
          refine ⟨j, rfl, here, by omega, ?_⟩
          intro i mem active
          rcases mem_append.mp mem with mem | mem
          · have := low i mem active
            omega
          · obtain rfl := mem_singleton.mp mem
            exact Int.le_refl _
        · rw [if_neg less]
          exact ⟨select, rfl, candidate, first, stays fun _ => by omega⟩
  obtain ⟨select, result, candidate, first, low⟩ := loop
  refine ⟨select, result, candidate, fun j active => ?_⟩
  rcases active with zero | ⟨inside, active⟩
  · rw [zero]
    exact first
  · exact low j (mem_range.mpr inside) (.inr ⟨inside, active⟩)

/-- Some entry that is compared is at most at the limit, so that no pass is rebased. -/
def Low (k : Kernel) : Prop := ∃ j < NPROC, Candidate k j ∧ (k.strides j).pass ≤ 200000000

instance (k : Kernel) : Decidable (Low k) :=
  inferInstanceAs (Decidable (∃ j < NPROC, Candidate k j ∧ (k.strides j).pass ≤ 200000000))

/-- What `choose_lowpass` returns: a process found in the queues if entry 0 is lowest, otherwise a
member of the lowest entry. -/
def Lowest (k : Kernel) (select : Nat) (chosen : Option Nat) : Prop :=
  (∀ j, Candidate k j → (k.strides select).pass ≤ (k.strides j).pass) ∧
  (select = 0 ∧ Found k [0, 1, 2] chosen ∨
    ∃ p w, select ≠ 0 ∧ Candidate k select ∧ (k.strides select).proc = some p ∧ chosen = some w ∧
      (k.proc w).state = .runnable ∧ ((k.proc p).isthread = false → w = p))

theorem Lowest.runnable {select : Nat} (lowest : Lowest k select (some w)) :
    (k.proc w).state = .runnable := by
  rcases lowest.2 with ⟨_, found, _⟩ | ⟨_, _, _, _, _, same, good, _⟩
  · exact found
  · cases same
    exact good

section

variable (ready : Ready k)
include ready

theorem choose_lowpass_ends (low : Low k) :
    ∃ t chosen select, choose_lowpass k = .ok (t, chosen) ∧ Looked k t ∧ (chosen = none → t = k) ∧
      Lowest k select chosen := by
  obtain ⟨select, result, candidate, least⟩ := lowest_ends ready
  obtain ⟨j, _, active, small⟩ := low
  have bound : ¬ (k.strides select).pass > 200000000 := by
    have := least j active
    omega
  unfold choose_lowpass
  rw [result]
  show ∃ t chosen select', (if (k.strides select).pass > 200000000 then _ else _) = _ ∧ _
  rw [if_neg bound]
  by_cases zero : select = 0
  · rw [if_pos zero]
    obtain ⟨t, chosen, result, looked, found, same⟩ := execLevels_ends ready [0, 1, 2]
    exact ⟨t, chosen, select, result, looked, same, least, .inl ⟨zero, found⟩⟩
  rw [if_neg zero]
  obtain ⟨inside, stride, runnable⟩ := candidate.resolve_left zero
  cases held : (k.strides select).proc with
  | none => exact absurd held (ready.entries select stride)
  | some p =>
    rw [held] at runnable
    obtain ⟨t, w, picked, looked, good, alone⟩ := pick_ends ready (isRunnable_some.mp runnable)
    refine ⟨t, some w, select, bind_eq_ok.mpr ⟨(t, w), picked, rfl⟩, looked,
      fun impossible => (nomatch impossible), least, .inr ?_⟩
    exact ⟨p, w, zero, candidate, held, rfl, good, alone⟩

/-- If all passes that are compared are beyond the limit, the code writes behind the array. -/
theorem choose_lowpass_rebases (high : ¬ Low k) : choose_lowpass k = .error .undefined := by
  obtain ⟨select, result, candidate, _⟩ := lowest_ends ready
  have inside : select < NPROC := by
    rcases candidate with zero | active
    · rw [zero]
      decide
    · exact active.1
  unfold choose_lowpass
  rw [result]
  show (if (k.strides select).pass > 200000000 then _ else _) = _
  rw [if_pos]
  by_contra small
  exact high ⟨select, inside, candidate, by omega⟩

/-- How `scheduler` comes to its choice. The first call of `choose_lowpass` finds a process; or
nothing is found in the queues, entry 0 pays and the second call decides, with the process that the
scan has met as the last resort. -/
inductive Choice (k : Kernel) (p : Nat) : Prop where
  | found (t : Kernel) (w select : Nat) (result : choose k p = .ok (t, w)) (looked : Looked k t)
      (lowest : Lowest k select (some w))
  | again (t : Kernel) (chosen : Option Nat) (select : Nat)
      (result : choose k p = .ok (t, chosen.getD p)) (looked : Looked (charge k) t)
      (idle : ∃ select, Lowest k select none) (lowest : Lowest (charge k) select chosen)
  | rebases (high : ¬ (Low k ∧ Low (charge k))) (result : choose k p = .error .undefined)

theorem choose_cases (p : Nat) : Choice k p := by
  by_cases low : Low k
  · obtain ⟨t, chosen, select, result, looked, same, outcome⟩ := choose_lowpass_ends ready low
    cases chosen with
    | some w => exact .found t w select (bind_eq_ok.mpr ⟨_, result, rfl⟩) looked outcome
    | none =>
      cases same rfl
      by_cases low' : Low (charge k)
      · obtain ⟨u, chosen, select', result', looked', _, outcome'⟩ :=
          choose_lowpass_ends ready.charge low'
        refine .again u chosen select' ?_ looked' ⟨select, outcome⟩ outcome'
        exact bind_eq_ok.mpr ⟨_, result, bind_eq_ok.mpr ⟨_, result', rfl⟩⟩
      · refine .rebases (fun both => low' both.2) ?_
        unfold choose
        rw [result]
        show (choose_lowpass (charge k) >>= _) = _
        rw [choose_lowpass_rebases ready.charge low']
        rfl
  · refine .rebases (fun both => low both.1) ?_
    unfold choose
    rw [choose_lowpass_rebases ready low]
    rfl

theorem choose_low (result : choose k p = .ok (t, w)) : Low k := by
  by_contra high
  unfold choose at result
  rw [choose_lowpass_rebases ready high] at result
  cases result

theorem choose_eq (runnable : (k.proc p).state = .runnable) (result : choose k p = .ok (t, w)) :
    (k.proc w).state = .runnable ∧ (Looked k t ∨ Looked (charge k) t) := by
  cases choose_cases ready p with
  | found u v select result' looked lowest =>
    cases result'.symm.trans result
    exact ⟨lowest.runnable, .inl looked⟩
  | again u chosen select result' looked idle lowest =>
    cases result'.symm.trans result
    cases chosen with
    | none => exact ⟨runnable, .inr looked⟩
    | some w => exact ⟨lowest.runnable, .inr looked⟩
  | rebases high result' => cases result'.symm.trans result

/-- The limit is kept in both calls of `choose_lowpass`. -/
def Unrebased (k : Kernel) : Prop := Low k ∧ Low (charge k)
deriving Decidable

theorem choose_ends (low : Unrebased k) (p : Nat) : ∃ t w, choose k p = .ok (t, w) := by
  cases choose_cases ready p with
  | found t w select result looked lowest => exact ⟨t, w, result⟩
  | again t chosen select result looked idle lowest => exact ⟨t, _, result⟩
  | rebases high result => exact absurd low high

end

end Xv6.Process.Dispatch
