/-
  BitcoinSpoon.Manager.Worker — the thread of a named work queue and its callers
  (`code/WorkQueue.c`).

  The worker waits until the queue is not empty and calls what is ready, again and again,
  until it is told to end. Any number of callers add and remove items, wait until the queue
  is empty or destroy it. A run is any interleaving of their steps; what is done under
  `queueLock` is one step, `executionLock` is held over several, and `pthread_cond_wait` may
  return at any time.

  When `WorkQueueWaitUntilEmpty` returns, no function is being called, and every one that was
  added before its last look at the queue has been called or removed (`wait_until_empty`);
  what is added between that look and the return is left in the queue.
-/

import BitcoinSpoon.Manager.Deadline
import Mathlib.Logic.Function.Basic

namespace BitcoinSpoon.WorkQueueThread

open Loop

variable {F D : Type}

inductive Thread where
  | worker
  | caller (i : Nat)
  deriving DecidableEq

/-- Where the worker is: in the loop of `workQueueExecute`, in `WorkQueueWaitUntilNotEmpty`
    or in `WorkQueueExecuteAll`. -/
inductive Worker where
  | loopTest
  /-- It wants `executionLock`, at first or back from `pthread_cond_wait`. -/
  | waitLock
  | waitTest
  /-- It has seen nothing that is ready at the time it read, and is about to wait. -/
  | decided (milliseconds : UInt64)
  | asleep (milliseconds : UInt64)
  | executeLock
  | getOne
  | running (number : Nat)
  | endLock
  | ended
  deriving DecidableEq

/-- Where a caller is. -/
inductive Caller where
  | idle
  /-- Its item is in the queue and not announced yet. -/
  | adding
  | removing
  | emptyLock
  | emptyTest
  /-- It has seen the queue empty and is about to return. -/
  | emptySeen
  | emptyDecided
  | emptyAsleep
  | destroyLock
  | destroyTest
  | destroyDecided
  | destroyAsleep
  | destroyWoken
  | destroyed
  deriving DecidableEq

structure State (F D : Type) where
  items : NumberedQueue F D
  executionLock : Option Thread
  waitingToDestroy : Bool
  worker : Worker
  callers : Nat → Caller

def State.start : State F D := ⟨numberedNew, none, false, .loopTest, fun _ => .idle⟩

/-! ## The steps -/

def Worker.wake : Worker → Worker
  | .asleep _ => .waitLock
  | worker => worker

def Caller.wake : Caller → Caller
  | .emptyAsleep => .emptyLock
  | .destroyAsleep => .destroyWoken
  | caller => caller

/-- `pthread_cond_broadcast`. -/
def State.broadcast (s : State F D) : State F D := { s with worker := s.worker.wake, callers := fun i => (s.callers i).wake }

def State.setCaller (s : State F D) (i : Nat) (caller : Caller) : State F D := { s with callers := Function.update s.callers i caller }

/-- The next step of the worker; `tv` is `gettimeofday`. -/
def State.workerStep (s : State F D) (tv : Timeval) : Option (State F D) :=
  match s.worker with
  | .loopTest => some { s with worker := if s.waitingToDestroy then .endLock else .waitLock }
  | .waitLock => if s.executionLock = none then some { s with executionLock := some .worker, worker := .waitTest } else none
  | .waitTest =>
    match waitRound s.items.queue s.waitingToDestroy tv with
    | .returns => some { s with executionLock := none, worker := .executeLock }
    | .aborts => none
    | _ => some { s with worker := .decided tv.milliseconds }
  | .decided milliseconds => some { s with executionLock := none, worker := .asleep milliseconds }
  | .executeLock =>
    if s.executionLock = none then
      (s.items.step .executeAll).map fun items => { s with items := items, executionLock := some .worker, worker := .getOne }
    else none
  | .getOne =>
    match (workQueueGetOne tv.milliseconds s.items.queue).1 with
    | some item => (s.items.step (.getOne tv.milliseconds)).map fun items => { s with items := items, worker := .running item.number }
    | none =>
      (s.items.step (.getOne tv.milliseconds)).map fun items =>
        { s with items := items, executionLock := none, worker := .loopTest }.broadcast
  | .running _ => some { s with worker := .getOne }
  | .endLock =>
    if s.executionLock = none then some { s with waitingToDestroy := false, worker := .ended }.broadcast else none
  | .asleep _ | .ended => none

/-- The next step of a caller that has not returned. -/
def State.callerStep (s : State F D) (i : Nat) : Option (State F D) :=
  match s.callers i with
  | .adding => some (s.setCaller i .idle).broadcast
  | .removing => if s.executionLock = none then some (s.setCaller i .idle).broadcast else none
  | .emptyLock =>
    if s.executionLock = none then some { s.setCaller i .emptyTest with executionLock := some (.caller i) } else none
  | .emptyTest => if s.items.queue = [] then some (s.setCaller i .emptySeen) else some (s.setCaller i .emptyDecided)
  | .emptySeen => some { s.setCaller i .idle with executionLock := none }
  | .emptyDecided => some { s.setCaller i .emptyAsleep with executionLock := none }
  | .destroyLock =>
    if s.executionLock = none then
      some { s.setCaller i .destroyTest with executionLock := some (.caller i), waitingToDestroy := true }.broadcast
    else none
  | .destroyTest =>
    if s.waitingToDestroy then some (s.setCaller i .destroyDecided)
    else some { s.setCaller i .destroyed with executionLock := none }
  | .destroyDecided => some { s.setCaller i .destroyAsleep with executionLock := none }
  | .destroyWoken =>
    if s.executionLock = none then some { s.setCaller i .destroyTest with executionLock := some (.caller i) } else none
  | .idle | .emptyAsleep | .destroyAsleep | .destroyed => none

/-- What a function adds that the worker calls is added by a caller too: it takes no lock
    that the worker has. -/
inductive Event (F D : Type) where
  | add (i : Nat) (function : F) (dict : D)
  | addDelayed (i : Nat) (function : F) (dict : D) (delayMilliseconds clock : UInt64)
  | remove (i : Nat) (removalTest : F → D → Bool)
  | waitUntilEmpty (i : Nat)
  | waitAndDestroy (i : Nat)
  | caller (i : Nat)
  | worker (tv : Timeval)
  /-- `pthread_cond_wait` returns on its own. -/
  | wake (thread : Thread)

/-- The caller `i` begins a call with what it does to the queue. -/
def State.begin (s : State F D) (i : Nat) (call : QueueCall F D) (caller : Caller) : Option (State F D) :=
  if s.callers i = .idle then (s.items.step call).map fun items => { s.setCaller i caller with items := items } else none

def State.step (s : State F D) : Event F D → Option (State F D)
  | .add i function dict => s.begin i (.add function dict) .adding
  | .addDelayed i function dict delay clock => s.begin i (.addDelayed function dict delay clock) .adding
  | .remove i removalTest => s.begin i (.remove removalTest) .removing
  | .waitUntilEmpty i => if s.callers i = .idle then some (s.setCaller i .emptyLock) else none
  | .waitAndDestroy i => if s.callers i = .idle then some (s.setCaller i .destroyLock) else none
  | .caller i => s.callerStep i
  | .worker tv => s.workerStep tv
  | .wake .worker => if s.worker.wake = s.worker then none else some { s with worker := s.worker.wake }
  | .wake (.caller i) => if (s.callers i).wake = s.callers i then none else some (s.setCaller i (s.callers i).wake)

/-! ## What a step does -/

variable {s next last : State F D} {i : Nat} {tv : Timeval} {event : Event F D}

/-- A step of the worker, by where it is. -/
inductive WorkerStep (s : State F D) (tv : Timeval) : State F D → Prop where
  | tests (hplace : s.worker = .loopTest) :
      WorkerStep s tv { s with worker := if s.waitingToDestroy then .endLock else .waitLock }
  | locks (hplace : s.worker = .waitLock) (hfree : s.executionLock = none) :
      WorkerStep s tv { s with executionLock := some .worker, worker := .waitTest }
  | returns (hplace : s.worker = .waitTest) (hround : waitRound s.items.queue s.waitingToDestroy tv = .returns) :
      WorkerStep s tv { s with executionLock := none, worker := .executeLock }
  | decides (hplace : s.worker = .waitTest) (hround : waitRound s.items.queue s.waitingToDestroy tv ≠ .returns) :
      WorkerStep s tv { s with worker := .decided tv.milliseconds }
  | sleeps (milliseconds : UInt64) (hplace : s.worker = .decided milliseconds) :
      WorkerStep s tv { s with executionLock := none, worker := .asleep milliseconds }
  | begins (items : NumberedQueue F D) (hplace : s.worker = .executeLock) (hfree : s.executionLock = none)
      (hitems : s.items.step .executeAll = some items) :
      WorkerStep s tv { s with items := items, executionLock := some .worker, worker := .getOne }
  | gets (items : NumberedQueue F D) (item : WorkQueueItem F (Nat × D)) (hplace : s.worker = .getOne)
      (hitem : (workQueueGetOne tv.milliseconds s.items.queue).1 = some item)
      (hitems : s.items.step (.getOne tv.milliseconds) = some items) :
      WorkerStep s tv { s with items := items, worker := .running item.number }
  | finishes (items : NumberedQueue F D) (hplace : s.worker = .getOne)
      (hnone : (workQueueGetOne tv.milliseconds s.items.queue).1 = none)
      (hitems : s.items.step (.getOne tv.milliseconds) = some items) :
      WorkerStep s tv { s with items := items, executionLock := none, worker := .loopTest }.broadcast
  | ran (number : Nat) (hplace : s.worker = .running number) : WorkerStep s tv { s with worker := .getOne }
  | ends (hplace : s.worker = .endLock) (hfree : s.executionLock = none) :
      WorkerStep s tv { s with waitingToDestroy := false, worker := .ended }.broadcast

theorem workerStep_cases (hstep : s.workerStep tv = some next) : WorkerStep s tv next := by
  unfold State.workerStep at hstep
  cases hplace : s.worker with
  | loopTest =>
    rw [hplace] at hstep
    cases hstep
    exact .tests hplace
  | waitLock =>
    simp only [hplace] at hstep
    split at hstep
    · cases hstep
      exact .locks hplace ‹_›
    · cases hstep
  | waitTest =>
    simp only [hplace] at hstep
    split at hstep
    · cases hstep
      exact .returns hplace ‹_›
    · cases hstep
    · rename_i hround _
      cases hstep
      exact .decides hplace hround
  | decided milliseconds =>
    rw [hplace] at hstep
    cases hstep
    exact .sleeps milliseconds hplace
  | executeLock =>
    simp only [hplace] at hstep
    split at hstep
    · obtain ⟨items, hitems, rfl⟩ := Option.map_eq_some_iff.1 hstep
      exact .begins items hplace ‹_› hitems
    · cases hstep
  | getOne =>
    simp only [hplace] at hstep
    split at hstep
    · obtain ⟨items, hitems, rfl⟩ := Option.map_eq_some_iff.1 hstep
      exact .gets items _ hplace ‹_› hitems
    · obtain ⟨items, hitems, rfl⟩ := Option.map_eq_some_iff.1 hstep
      exact .finishes items hplace ‹_› hitems
  | running number =>
    rw [hplace] at hstep
    cases hstep
    exact .ran number hplace
  | endLock =>
    simp only [hplace] at hstep
    split at hstep
    · cases hstep
      exact .ends hplace ‹_›
    · cases hstep
  | asleep milliseconds => rw [hplace] at hstep; cases hstep
  | ended => rw [hplace] at hstep; cases hstep

/-- A step of the caller `i`, by what it does to the lock. -/
inductive CallerStep (s : State F D) (i : Nat) : State F D → Prop where
  | announces (hplace : s.callers i = .adding ∨ s.callers i = .removing) : CallerStep s i (s.setCaller i .idle).broadcast
  | orders (hplace : s.callers i = .destroyLock) (hfree : s.executionLock = none) :
      CallerStep s i { s.setCaller i .destroyTest with executionLock := some (.caller i), waitingToDestroy := true }.broadcast
  | takes (place : Caller) (hfree : s.executionLock = none)
      (hplace : s.callers i = .emptyLock ∧ place = .emptyTest ∨ s.callers i = .destroyWoken ∧ place = .destroyTest) :
      CallerStep s i { s.setCaller i place with executionLock := some (.caller i) }
  | looks (place : Caller)
      (hplace : s.callers i = .emptyTest ∧ (s.items.queue = [] ∧ place = .emptySeen ∨ place = .emptyDecided) ∨
        s.callers i = .destroyTest ∧ place = .destroyDecided) : CallerStep s i (s.setCaller i place)
  | leaves (place : Caller)
      (hplace : s.callers i = .emptySeen ∧ place = .idle ∨ s.callers i = .emptyDecided ∧ place = .emptyAsleep ∨
        s.callers i = .destroyDecided ∧ place = .destroyAsleep ∨
        s.callers i = .destroyTest ∧ s.waitingToDestroy = false ∧ place = .destroyed) :
      CallerStep s i { s.setCaller i place with executionLock := none }

theorem callerStep_cases (hstep : s.callerStep i = some next) : CallerStep s i next := by
  unfold State.callerStep at hstep
  cases hplace : s.callers i with
  | adding =>
    rw [hplace] at hstep
    cases hstep
    exact .announces (Or.inl hplace)
  | removing =>
    simp only [hplace] at hstep
    split at hstep
    · cases hstep
      exact .announces (Or.inr hplace)
    · cases hstep
  | emptyLock =>
    simp only [hplace] at hstep
    split at hstep
    · cases hstep
      exact .takes _ ‹_› (Or.inl ⟨hplace, rfl⟩)
    · cases hstep
  | emptyTest =>
    simp only [hplace] at hstep
    split at hstep
    · cases hstep
      exact .looks _ (Or.inl ⟨hplace, Or.inl ⟨‹_›, rfl⟩⟩)
    · cases hstep
      exact .looks _ (Or.inl ⟨hplace, Or.inr rfl⟩)
  | emptySeen =>
    rw [hplace] at hstep
    cases hstep
    exact .leaves _ (Or.inl ⟨hplace, rfl⟩)
  | emptyDecided =>
    rw [hplace] at hstep
    cases hstep
    exact .leaves _ (Or.inr (Or.inl ⟨hplace, rfl⟩))
  | destroyLock =>
    simp only [hplace] at hstep
    split at hstep
    · cases hstep
      exact .orders hplace ‹_›
    · cases hstep
  | destroyTest =>
    simp only [hplace] at hstep
    split at hstep
    · cases hstep
      exact .looks _ (Or.inr ⟨hplace, rfl⟩)
    · rename_i hback
      cases hstep
      exact .leaves _ (Or.inr (Or.inr (Or.inr ⟨hplace, by simpa using hback, rfl⟩)))
  | destroyDecided =>
    rw [hplace] at hstep
    cases hstep
    exact .leaves _ (Or.inr (Or.inr (Or.inl ⟨hplace, rfl⟩)))
  | destroyWoken =>
    simp only [hplace] at hstep
    split at hstep
    · cases hstep
      exact .takes _ ‹_› (Or.inr ⟨hplace, rfl⟩)
    · cases hstep
  | idle => rw [hplace] at hstep; cases hstep
  | emptyAsleep => rw [hplace] at hstep; cases hstep
  | destroyAsleep => rw [hplace] at hstep; cases hstep
  | destroyed => rw [hplace] at hstep; cases hstep

/-! ## The lock -/

def Worker.holds : Worker → Prop
  | .waitTest | .decided _ | .getOne | .running _ => True
  | _ => False

def Caller.holds : Caller → Prop
  | .emptyTest | .emptySeen | .emptyDecided | .destroyTest | .destroyDecided => True
  | _ => False

/-- `executionLock` is with who is where it is held. -/
structure Locked (s : State F D) : Prop where
  worker : s.executionLock = some .worker ↔ s.worker.holds
  caller : ∀ i, s.executionLock = some (.caller i) ↔ (s.callers i).holds

theorem Worker.wake_holds (worker : Worker) : worker.wake.holds ↔ worker.holds := by cases worker <;> exact Iff.rfl

theorem Caller.wake_holds (caller : Caller) : caller.wake.holds ↔ caller.holds := by cases caller <;> exact Iff.rfl

theorem Locked.broadcast (h : Locked s) : Locked s.broadcast :=
  ⟨h.worker.trans (Worker.wake_holds _).symm, fun i => (h.caller i).trans (Caller.wake_holds _).symm⟩

/-- Whoever holds it, the caller goes on without it. -/
theorem Locked.setCaller (h : Locked s) {caller : Caller} (hbefore : ¬ (s.callers i).holds) (hafter : ¬ caller.holds) :
    Locked (s.setCaller i caller) := by
  refine ⟨h.worker, fun j => ?_⟩
  show s.executionLock = some (.caller j) ↔ (Function.update s.callers i caller j).holds
  by_cases hj : j = i
  · subst hj
    rw [Function.update_self, h.caller j]
    exact iff_of_false hbefore hafter
  · rw [Function.update_of_ne hj]
    exact h.caller j

theorem Locked.free_worker (h : Locked s) (hfree : s.executionLock = none) : ¬ s.worker.holds := by
  rw [← h.worker, hfree]
  exact (Option.some_ne_none _).symm

theorem Locked.free_caller (h : Locked s) (hfree : s.executionLock = none) (i : Nat) : ¬ (s.callers i).holds := by
  rw [← h.caller i, hfree]
  exact (Option.some_ne_none _).symm

/-- A caller that keeps the lock. -/
theorem Locked.callerKeeps (h : Locked s) {caller : Caller} (hbefore : (s.callers i).holds) (hafter : caller.holds) :
    Locked (s.setCaller i caller) := by
  refine ⟨h.worker, fun j => ?_⟩
  show s.executionLock = some (.caller j) ↔ (Function.update s.callers i caller j).holds
  by_cases hj : j = i
  · subst hj
    rw [Function.update_self, h.caller j]
    exact iff_of_true hbefore hafter
  · rw [Function.update_of_ne hj]
    exact h.caller j

theorem Locked.callerTakes (h : Locked s) (hfree : s.executionLock = none) {caller : Caller} (hafter : caller.holds) :
    Locked { s.setCaller i caller with executionLock := some (.caller i) } := by
  refine ⟨iff_of_false (by simp) (h.free_worker hfree), fun j => ?_⟩
  show some (Thread.caller i) = some (.caller j) ↔ (Function.update s.callers i caller j).holds
  by_cases hj : j = i
  · subst hj
    rw [Function.update_self]
    exact iff_of_true rfl hafter
  · rw [Function.update_of_ne hj]
    exact iff_of_false (by simpa using Ne.symm hj) (h.free_caller hfree j)

theorem Locked.callerLeaves (h : Locked s) {caller : Caller} (hbefore : (s.callers i).holds) (hafter : ¬ caller.holds) :
    Locked { s.setCaller i caller with executionLock := none } := by
  have hlock := (h.caller i).2 hbefore
  have hworker : ¬ s.worker.holds := by
    rw [← h.worker, hlock]
    simp
  refine ⟨iff_of_false (Option.some_ne_none _).symm hworker, fun j => iff_of_false (Option.some_ne_none _).symm ?_⟩
  show ¬ (Function.update s.callers i caller j).holds
  by_cases hj : j = i
  · subst hj
    rwa [Function.update_self]
  · rw [Function.update_of_ne hj, ← h.caller j, hlock]
    simpa using Ne.symm hj

theorem Locked.workerTakes (h : Locked s) (hfree : s.executionLock = none) {worker : Worker} (hafter : worker.holds) :
    Locked { s with executionLock := some .worker, worker := worker } := by
  exact ⟨iff_of_true rfl hafter, fun j => iff_of_false (by simp) (h.free_caller hfree j)⟩

theorem Locked.workerLeaves (h : Locked s) {worker : Worker} (hbefore : s.worker.holds) (hafter : ¬ worker.holds) :
    Locked { s with executionLock := none, worker := worker } := by
  have hlock := h.worker.2 hbefore
  refine ⟨iff_of_false (Option.some_ne_none _).symm hafter, fun j => iff_of_false (Option.some_ne_none _).symm ?_⟩
  rw [← h.caller j, hlock]
  simp

theorem Locked.workerMoves (h : Locked s) {worker : Worker} (hsame : s.worker.holds ↔ worker.holds) :
    Locked { s with worker := worker } := ⟨h.worker.trans hsame, h.caller⟩

theorem Locked.items (h : Locked s) (items : NumberedQueue F D) : Locked { s with items := items } := ⟨h.worker, h.caller⟩

theorem Locked.workerStep (h : Locked s) (hstep : s.workerStep tv = some next) : Locked next := by
  cases workerStep_cases hstep with
  | tests hplace =>
    apply h.workerMoves
    rw [hplace]
    split <;> exact Iff.rfl
  | locks hplace hfree => exact h.workerTakes hfree trivial
  | returns hplace hround => exact h.workerLeaves (hplace ▸ trivial) id
  | decides hplace hround => exact h.workerMoves (iff_of_true (hplace ▸ trivial) trivial)
  | sleeps milliseconds hplace => exact h.workerLeaves (hplace ▸ trivial) id
  | begins items hplace hfree hitems =>
    have htaken : Locked { s with executionLock := some .worker, worker := .getOne } := h.workerTakes hfree trivial
    exact htaken.items items
  | gets items item hplace hitem hitems =>
    have hrunning : Locked { s with worker := .running item.number } := h.workerMoves (iff_of_true (hplace ▸ trivial) trivial)
    exact hrunning.items items
  | finishes items hplace hnone hitems =>
    have hleft : Locked { s with executionLock := none, worker := .loopTest } := h.workerLeaves (hplace ▸ trivial) id
    exact (hleft.items items).broadcast
  | ran number hplace => exact h.workerMoves (iff_of_true (hplace ▸ trivial) trivial)
  | ends hplace hfree =>
    have hnot : ¬ s.worker.holds := hplace ▸ id
    exact Locked.broadcast ⟨h.worker.trans (iff_of_false hnot id), h.caller⟩

theorem Locked.callerStep (h : Locked s) (hstep : s.callerStep i = some next) : Locked next := by
  cases callerStep_cases hstep with
  | announces hplace =>
    have hnot : ¬ (s.callers i).holds := by rcases hplace with hplace | hplace <;> exact hplace ▸ id
    exact (h.setCaller hnot id).broadcast
  | orders hplace hfree =>
    have htaken : Locked { s.setCaller i .destroyTest with executionLock := some (.caller i) } := h.callerTakes hfree trivial
    exact Locked.broadcast ⟨htaken.worker, htaken.caller⟩
  | takes place hfree hplace =>
    apply h.callerTakes hfree
    rcases hplace with ⟨-, rfl⟩ | ⟨-, rfl⟩ <;> trivial
  | looks place hplace =>
    rcases hplace with ⟨hplace, ⟨-, rfl⟩ | rfl⟩ | ⟨hplace, rfl⟩ <;> exact h.callerKeeps (hplace ▸ trivial) trivial
  | leaves place hplace =>
    rcases hplace with ⟨hplace, rfl⟩ | ⟨hplace, rfl⟩ | ⟨hplace, rfl⟩ | ⟨hplace, -, rfl⟩ <;>
      exact h.callerLeaves (hplace ▸ trivial) id

theorem begin_cases {call : QueueCall F D} {caller : Caller} (hstep : s.begin i call caller = some next) :
    s.callers i = .idle ∧ ∃ items, s.items.step call = some items ∧ next = { s.setCaller i caller with items := items } := by
  unfold State.begin at hstep
  split at hstep
  · rename_i hidle
    obtain ⟨items, hitems, rfl⟩ := Option.map_eq_some_iff.1 hstep
    exact ⟨hidle, items, hitems, rfl⟩
  · cases hstep

theorem Locked.begin (h : Locked s) {call : QueueCall F D} {caller : Caller} (hafter : ¬ caller.holds)
    (hstep : s.begin i call caller = some next) : Locked next := by
  obtain ⟨hidle, items, -, rfl⟩ := begin_cases hstep
  exact (h.setCaller (hidle ▸ id) hafter).items items

theorem wake_cases {thread : Thread} (hstep : s.step (.wake thread) = some next) :
    (thread = .worker ∧ s.worker.wake ≠ s.worker ∧ next = { s with worker := s.worker.wake }) ∨
      ∃ i, thread = .caller i ∧ (s.callers i).wake ≠ s.callers i ∧ next = s.setCaller i (s.callers i).wake := by
  cases thread with
  | worker =>
    rw [State.step] at hstep
    split at hstep
    · cases hstep
    · rename_i hne
      cases hstep
      exact Or.inl ⟨rfl, hne, rfl⟩
  | caller i =>
    rw [State.step] at hstep
    split at hstep
    · cases hstep
    · rename_i hne
      cases hstep
      exact Or.inr ⟨i, rfl, hne, rfl⟩

theorem Caller.wake_not_holds {caller : Caller} (h : caller.wake ≠ caller) : ¬ caller.holds := by
  cases caller <;> first | exact id | exact absurd rfl h

theorem Locked.step (h : Locked s) (hstep : s.step event = some next) : Locked next := by
  cases event with
  | add i function dict => exact h.begin id hstep
  | addDelayed i function dict delay clock => exact h.begin id hstep
  | remove i removalTest => exact h.begin id hstep
  | waitUntilEmpty i =>
    rw [State.step] at hstep
    split at hstep
    · rename_i hidle
      cases hstep
      exact h.setCaller (hidle ▸ id) id
    · cases hstep
  | waitAndDestroy i =>
    rw [State.step] at hstep
    split at hstep
    · rename_i hidle
      cases hstep
      exact h.setCaller (hidle ▸ id) id
    · cases hstep
  | caller i => exact h.callerStep hstep
  | worker tv => exact h.workerStep hstep
  | wake thread =>
    rcases wake_cases hstep with ⟨-, -, rfl⟩ | ⟨i, -, hne, rfl⟩
    · exact h.workerMoves (Worker.wake_holds _).symm
    · have hnot := Caller.wake_not_holds hne
      exact h.setCaller hnot (mt (Caller.wake_holds _).1 hnot)

theorem Locked.start : Locked (State.start : State F D) :=
  ⟨iff_of_false (Option.some_ne_none _).symm id, fun _ => iff_of_false (Option.some_ne_none _).symm id⟩

/-! ## What a step does to the queue -/

theorem setCaller_others {caller : Caller} {j : Nat} (hj : j ≠ i) : (s.setCaller i caller).callers j = s.callers j :=
  Function.update_of_ne hj _ _

/-- A step of a caller that has begun leaves the queue, of the others it wakes some at most,
    and it takes no order to end back. -/
structure StepsAside (s next : State F D) (i : Nat) : Prop where
  items : next.items = s.items
  told : s.waitingToDestroy = true → next.waitingToDestroy = true
  worker : next.worker = s.worker ∨ next.worker = s.worker.wake
  others : ∀ j, j ≠ i → next.callers j = s.callers j ∨ next.callers j = (s.callers j).wake

theorem setCaller_aside (s : State F D) (i : Nat) (caller : Caller) : StepsAside s (s.setCaller i caller) i :=
  ⟨rfl, id, Or.inl rfl, fun _ hj => Or.inl (setCaller_others hj)⟩

theorem broadcast_aside (s : State F D) (i : Nat) (caller : Caller) : StepsAside s (s.setCaller i caller).broadcast i :=
  ⟨rfl, id, Or.inr rfl, fun _ hj => Or.inr (congrArg Caller.wake (setCaller_others hj))⟩

theorem StepsAside.lock (h : StepsAside s next i) (executionLock : Option Thread) :
    StepsAside s { next with executionLock := executionLock } i := ⟨h.items, h.told, h.worker, h.others⟩

theorem callerStep_aside (hstep : s.callerStep i = some next) : StepsAside s next i := by
  cases callerStep_cases hstep with
  | announces hplace => exact broadcast_aside s i _
  | orders hplace hfree =>
    have haside := broadcast_aside s i .destroyTest
    exact ⟨haside.items, fun _ => rfl, haside.worker, haside.others⟩
  | takes place hfree hplace => exact (setCaller_aside s i place).lock _
  | looks place hplace => exact setCaller_aside s i place
  | leaves place hplace => exact (setCaller_aside s i place).lock _

theorem workerStep_items (hstep : s.workerStep tv = some next) :
    next.items = s.items ∨ ∃ call, s.items.step call = some next.items := by
  cases workerStep_cases hstep with
  | begins items hplace hfree hitems => exact Or.inr ⟨_, hitems⟩
  | gets items item hplace hitem hitems => exact Or.inr ⟨_, hitems⟩
  | finishes items hplace hnone hitems => exact Or.inr ⟨_, hitems⟩
  | _ => exact Or.inl rfl

theorem step_items (hstep : s.step event = some next) : next.items = s.items ∨ ∃ call, s.items.step call = some next.items := by
  have hbegin : ∀ {i call caller}, s.begin i call caller = some next → ∃ call, s.items.step call = some next.items := by
    intro i call caller hstep
    obtain ⟨-, items, hitems, rfl⟩ := begin_cases hstep
    exact ⟨call, hitems⟩
  have hidle : ∀ {i caller}, (if s.callers i = .idle then some (s.setCaller i caller) else none) = some next →
      next.items = s.items := by
    intro i caller hstep
    split at hstep
    · cases hstep
      rfl
    · cases hstep
  cases event with
  | add i function dict => exact Or.inr (hbegin hstep)
  | addDelayed i function dict delay clock => exact Or.inr (hbegin hstep)
  | remove i removalTest => exact Or.inr (hbegin hstep)
  | waitUntilEmpty i => exact Or.inl (hidle hstep)
  | waitAndDestroy i => exact Or.inl (hidle hstep)
  | caller i => exact Or.inl (callerStep_aside hstep).items
  | worker tv => exact workerStep_items hstep
  | wake thread =>
    rcases wake_cases hstep with ⟨-, -, rfl⟩ | ⟨i, -, -, rfl⟩
    · exact Or.inl rfl
    · exact Or.inl rfl

/-- Only the worker takes items and the order to end. -/
structure Others (s next : State F D) : Prop where
  worker : next.worker = s.worker ∨ next.worker = s.worker.wake
  told : s.waitingToDestroy = true → next.waitingToDestroy = true
  taken : next.items.taken = s.items.taken

theorem begin_others {call : QueueCall F D} {caller : Caller} (hstep : s.begin i call caller = some next)
    (htaken : ∀ items, s.items.step call = some items → items.taken = s.items.taken) : Others s next := by
  obtain ⟨-, items, hitems, rfl⟩ := begin_cases hstep
  exact ⟨Or.inl rfl, id, htaken items hitems⟩

theorem step_others (hstep : s.step event = some next) : (∃ tv, event = .worker tv ∧ s.workerStep tv = some next) ∨ Others s next := by
  have hidle : ∀ {i caller}, (if s.callers i = .idle then some (s.setCaller i caller) else none) = some next → Others s next := by
    intro i caller hstep
    split at hstep
    · cases hstep
      exact ⟨Or.inl rfl, id, rfl⟩
    · cases hstep
  cases event with
  | add i function dict =>
    refine Or.inr (begin_others hstep fun items hitems => ?_)
    cases hitems
    rfl
  | addDelayed i function dict delay clock =>
    refine Or.inr (begin_others hstep fun items hitems => ?_)
    cases hitems
    rfl
  | remove i removalTest =>
    refine Or.inr (begin_others hstep fun items hitems => ?_)
    cases hitems
    rfl
  | waitUntilEmpty i => exact Or.inr (hidle hstep)
  | waitAndDestroy i => exact Or.inr (hidle hstep)
  | caller i =>
    have haside := callerStep_aside hstep
    exact Or.inr ⟨haside.worker, haside.told, by rw [haside.items]⟩
  | worker tv => exact Or.inl ⟨tv, rfl, hstep⟩
  | wake thread =>
    rcases wake_cases hstep with ⟨-, -, rfl⟩ | ⟨i, -, -, rfl⟩
    · exact Or.inr ⟨Or.inr rfl, id, rfl⟩
    · exact Or.inr ⟨Or.inl rfl, id, rfl⟩

theorem workerStep_callers (hstep : s.workerStep tv = some next) :
    next.callers = s.callers ∨ next.callers = fun i => (s.callers i).wake := by
  cases workerStep_cases hstep with
  | finishes items hplace hnone hitems => exact Or.inr rfl
  | ends hplace hfree => exact Or.inr rfl
  | _ => exact Or.inl rfl

/-- The worker takes items only while it has the lock. -/
theorem workerStep_taken (hstep : s.workerStep tv = some next) (hworker : ¬ s.worker.holds) : next.items.taken = s.items.taken := by
  cases workerStep_cases hstep with
  | begins items hplace hfree hitems =>
    cases hitems
    rfl
  | gets items item hplace hitem hitems => exact absurd (show s.worker.holds from hplace ▸ trivial) hworker
  | finishes items hplace hnone hitems => exact absurd (show s.worker.holds from hplace ▸ trivial) hworker
  | _ => rfl

/-! ## Where a caller comes to by itself -/

/-- No call begins there, and no broadcast leads there. -/
def Caller.Inner : Caller → Prop
  | .adding | .removing | .emptyLock | .destroyLock | .destroyWoken => False
  | _ => True

theorem Caller.Inner.of_wake {place caller : Caller} (hplace : place.Inner) (h : caller.wake = place) : caller = place := by
  cases caller with
  | emptyAsleep => subst h; exact hplace.elim
  | destroyAsleep => subst h; exact hplace.elim
  | _ => exact h

theorem setCaller_self (s : State F D) (i : Nat) (caller : Caller) : (s.setCaller i caller).callers i = caller :=
  Function.update_self _ _ _

theorem setCaller_elsewhere {place caller : Caller} {j : Nat} (hcaller : caller ≠ place)
    (h : (s.setCaller j caller).callers i = place) : s.callers i = place := by
  by_cases hj : i = j
  · subst hj
    exact absurd ((setCaller_self s i caller).symm.trans h) hcaller
  · rwa [setCaller_others hj] at h

theorem setCaller_ne {place caller : Caller} (hcaller : caller ≠ place) : (s.setCaller i caller).callers i ≠ place := by
  rwa [setCaller_self]

theorem broadcast_ne {place caller : Caller} (hplace : place.Inner) (hcaller : caller ≠ place) :
    (s.setCaller i caller).broadcast.callers i ≠ place := fun heq => setCaller_ne hcaller (hplace.of_wake heq)

/-- The caller has come there with a step of its own, or was there before. -/
theorem step_inner {place : Caller} (hplace : place.Inner) (hstep : s.step event = some next) (h : next.callers i = place) :
    event = .caller i ∧ s.callerStep i = some next ∨ event ≠ .caller i ∧ s.callers i = place := by
  have hbegin : ∀ {j call caller}, ¬ caller.Inner → s.begin j call caller = some next → s.callers i = place := by
    intro j call caller hcaller hstep
    obtain ⟨-, items, -, rfl⟩ := begin_cases hstep
    exact setCaller_elsewhere (fun heq => hcaller (by rw [heq]; exact hplace)) h
  have hidle : ∀ {j caller}, ¬ caller.Inner →
      (if s.callers j = .idle then some (s.setCaller j caller) else none) = some next → s.callers i = place := by
    intro j caller hcaller hstep
    split at hstep
    · cases hstep
      exact setCaller_elsewhere (fun heq => hcaller (by rw [heq]; exact hplace)) h
    · cases hstep
  cases event with
  | add j function dict => exact Or.inr ⟨by simp, hbegin id hstep⟩
  | addDelayed j function dict delay clock => exact Or.inr ⟨by simp, hbegin id hstep⟩
  | remove j removalTest => exact Or.inr ⟨by simp, hbegin id hstep⟩
  | waitUntilEmpty j => exact Or.inr ⟨by simp, hidle id hstep⟩
  | waitAndDestroy j => exact Or.inr ⟨by simp, hidle id hstep⟩
  | caller j =>
    by_cases hj : i = j
    · subst hj
      exact Or.inl ⟨rfl, hstep⟩
    · refine Or.inr ⟨fun heq => hj (by cases heq; rfl), ?_⟩
      rcases (callerStep_aside hstep).others i hj with hsame | hwoken
      · exact hsame ▸ h
      · exact hplace.of_wake (hwoken ▸ h)
  | worker tv =>
    refine Or.inr ⟨by simp, ?_⟩
    rcases workerStep_callers hstep with hsame | hwoken
    · exact hsame ▸ h
    · rw [hwoken] at h
      exact hplace.of_wake h
  | wake thread =>
    refine Or.inr ⟨by simp, ?_⟩
    rcases wake_cases hstep with ⟨-, -, rfl⟩ | ⟨j, -, hne, rfl⟩
    · exact h
    · refine setCaller_elsewhere (fun heq => hne ?_) h
      rw [heq, hplace.of_wake heq]

/-- Every item is in one place, and the lock is with who holds it. -/
structure Sound (s : State F D) : Prop where
  locked : Locked s
  accounted : Accounted s.items

theorem Sound.start : Sound (State.start : State F D) := ⟨Locked.start, accounted_new⟩

theorem Sound.step (h : Sound s) (hstep : s.step event = some next) : Sound next := by
  refine ⟨h.locked.step hstep, ?_⟩
  rcases step_items hstep with hsame | ⟨call, hcall⟩
  · rw [hsame]
    exact h.accounted
  · exact step_accounted h.accounted hcall

theorem Sound.run {events : List (Event F D)} (hrun : after State.step State.start events = some s) : Sound s :=
  after_inv (fun _ _ _ hs hstep => hs.step hstep) Sound.start hrun

/-! ## `WorkQueueWaitUntilEmpty` -/

/-- A caller has seen the queue empty where it is. -/
theorem callerStep_emptySeen (hstep : s.callerStep i = some next) (h : next.callers i = .emptySeen) :
    s.callers i = .emptyTest ∧ s.items.queue = [] ∧ next.items = s.items := by
  have hset : ∀ caller, caller ≠ .emptySeen → (s.setCaller i caller).callers i ≠ .emptySeen := fun _ => setCaller_ne
  have hbroadcast : ∀ caller, caller ≠ .emptySeen → (s.setCaller i caller).broadcast.callers i ≠ .emptySeen :=
    fun _ => broadcast_ne trivial
  cases callerStep_cases hstep with
  | looks place hplace =>
    rcases hplace with ⟨hplace, ⟨hempty, rfl⟩ | rfl⟩ | ⟨-, rfl⟩
    · exact ⟨hplace, hempty, rfl⟩
    · exact absurd h (hset _ (by decide))
    · exact absurd h (hset _ (by decide))
  | announces hplace => exact absurd h (hbroadcast _ (by decide))
  | orders hplace hfree => exact absurd h (hbroadcast .destroyTest (by decide))
  | takes place hfree hplace =>
    refine absurd h (hset place ?_)
    rcases hplace with ⟨-, rfl⟩ | ⟨-, rfl⟩ <;> decide
  | leaves place hplace =>
    refine absurd h (hset place ?_)
    rcases hplace with ⟨-, rfl⟩ | ⟨-, rfl⟩ | ⟨-, rfl⟩ | ⟨-, -, rfl⟩ <;> decide

/-- From its look at the queue to its return the lock is the caller's. -/
theorem Sound.seen (hs : Sound s) (hseen : s.callers i = .emptySeen) : ¬ s.worker.holds := by
  intro hholds
  have hlock := (hs.locked.caller i).2 (hseen ▸ trivial)
  rw [hs.locked.worker.2 hholds] at hlock
  cases hlock

theorem Sound.seen_step (hs : Sound s) (hseen : s.callers i = .emptySeen) (hstep : s.step event = some next) :
    next.items.taken = s.items.taken := by
  rcases step_others hstep with ⟨tv, rfl, hworker⟩ | hothers
  · exact workerStep_taken hworker (hs.seen hseen)
  · exact hothers.taken

/-- A call of `WorkQueueWaitUntilEmpty` that is about to return has looked at the queue, and by that
    look everything added before had been called or removed, each once; since then no function
    has been called, and none is being called. -/
theorem wait_until_empty {events : List (Event F D)} (hrun : after State.step State.start events = some s)
    (hseen : s.callers i = .emptySeen) :
    ∃ before later look, events = before ++ .caller i :: later ∧ .caller i ∉ later ∧
      after State.step State.start before = some look ∧ look.callers i = .emptyTest ∧
        (look.items.taken ++ look.items.removed).Perm (List.range look.items.added) ∧
          s.items.taken = look.items.taken ∧ ∀ number, s.worker ≠ .running number := by
  induction events using List.reverseRecOn generalizing s with
  | nil =>
    cases hrun
    cases hseen
  | append_singleton events event ih =>
    have hstill : ∀ number, s.worker ≠ .running number :=
      fun number hrunning => (Sound.run hrun).seen hseen (hrunning ▸ trivial)
    rw [after_append] at hrun
    obtain ⟨previous, hprevious, hlast⟩ := Option.bind_eq_some_iff.1 hrun
    have hstep : previous.step event = some s := by
      rw [after, List.foldlM_cons] at hlast
      simpa using hlast
    rcases step_inner (show Caller.emptySeen.Inner from trivial) hstep hseen with ⟨rfl, hcaller⟩ | ⟨hother, hbefore⟩
    · -- the look itself
      obtain ⟨htest, hempty, hitems⟩ := callerStep_emptySeen hcaller hseen
      have honce := (Sound.run hprevious).accounted.once
      rw [hempty] at honce
      exact ⟨events, [], previous, rfl, List.not_mem_nil, hprevious, htest, honce, by rw [hitems], hstill⟩
    · obtain ⟨before, later, look, rfl, hlater, hlook, htest, honce, htaken, -⟩ := ih hprevious hbefore
      refine ⟨before, later ++ [event], look, by simp, ?_, hlook, htest, honce, ?_, hstill⟩
      · simpa [hlater] using Ne.symm hother
      · rw [(Sound.run hprevious).seen_step hbefore hstep, htaken]

/-- The first function has been called; a second one is added between the look and the return. -/
theorem wait_until_empty_added :
    ∃ s look : State Unit Unit, s.items.queue.length = 1 ∧
      (look.items.taken ++ look.items.removed).Perm (List.range look.items.added) ∧ s.items.taken = look.items.taken ∧
        ∀ number, s.worker ≠ .running number := by
  let tv : Timeval := ⟨0, 0, by decide⟩
  obtain ⟨s, hs⟩ : ∃ s, after State.step (State.start : State Unit Unit) [.add 0 () (), .caller 0, .worker tv, .worker tv, .worker tv,
      .worker tv, .worker tv, .waitUntilEmpty 1, .worker tv, .worker tv, .caller 1, .caller 1, .add 2 () ()] = some s := ⟨_, rfl⟩
  have hseen : s.callers 1 = .emptySeen := by
    cases hs
    rfl
  have hqueue : s.items.queue.length = 1 := by
    cases hs
    rfl
  obtain ⟨-, -, look, -, -, -, -, honce, htaken, hstill⟩ := wait_until_empty hs hseen
  exact ⟨s, look, hqueue, honce, htaken, hstill⟩

end BitcoinSpoon.WorkQueueThread
