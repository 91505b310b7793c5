/-
  BitcoinSpoon.Manager.Destroy — what is left of a work queue when its thread ends
  (`WorkQueueThreadWaitAndDestroy`, `code/WorkQueue.c`).

  The worker looks at `waitingToDestroy` before its first round and between its rounds, and
  ends without a look at the queue. So what is in the queue when the thread is told to end is
  still called if the worker waits or is in a round; if it is at that test, it is freed with
  the queue and never called (`destroy_executes`).
-/

import BitcoinSpoon.Manager.Worker

namespace BitcoinSpoon.WorkQueueThread

open Loop

variable {F D : Type} {s next last : State F D} {i : Nat} {tv : Timeval} {event : Event F D}

/-- At the test of `waitingToDestroy` or past it: told to end, the worker looks at the queue no
    more. -/
def Worker.Leaves : Worker → Prop
  | .loopTest | .endLock | .ended => True
  | _ => False

/-! ## The queue -/

/-- A step of the queue leaves an item where it is, takes it or removes it. -/
theorem queue_keeps {queue after : NumberedQueue F D} {call : QueueCall F D} {item : WorkQueueItem F (Nat × D)}
    (hstep : queue.step call = some after) (hitem : item ∈ queue.queue) :
    item ∈ after.queue ∨ item.number ∈ after.taken ∨ item.number ∈ after.removed := by
  cases call with
  | add function dict =>
    cases hstep
    exact Or.inl (List.mem_append_left _ hitem)
  | addDelayed function dict delay clock =>
    cases hstep
    exact Or.inl (List.mem_append_left _ hitem)
  | remove removalTest =>
    cases hstep
    by_cases htest : removalTest item.function item.dict.2 = true
    · exact Or.inr (Or.inr (List.mem_append_right _ (List.mem_map_of_mem (List.mem_filter.2 ⟨hitem, htest⟩))))
    · exact Or.inl (List.mem_filter.2 ⟨hitem, by simpa using htest⟩)
  | executeAll =>
    cases hstep
    exact Or.inl hitem
  | getOne milliseconds =>
    rw [NumberedQueue.step] at hstep
    split at hstep
    · cases hstep
    rcases getOne_cases milliseconds queue.queue with ⟨hnone, -⟩ | ⟨before, first, rest, hqueue, hsome, -, -⟩
    · rw [hnone] at hstep
      cases hstep
      exact Or.inl hitem
    · rw [hsome] at hstep
      cases hstep
      rw [hqueue, List.mem_append, List.mem_cons] at hitem
      rcases hitem with hbefore | rfl | hrest
      · exact Or.inl (List.mem_append_left _ hbefore)
      · exact Or.inr (Or.inl (List.mem_append_right _ (List.mem_singleton_self _)))
      · exact Or.inl (List.mem_append_right _ hrest)

/-- The item is in the queue, taken or removed. -/
def Kept (item : WorkQueueItem F (Nat × D)) (queue : NumberedQueue F D) : Prop :=
  item ∈ queue.queue ∨ item.number ∈ queue.taken ∨ item.number ∈ queue.removed

theorem Kept.step {item : WorkQueueItem F (Nat × D)} (h : Kept item s.items) (hstep : s.step event = some next) :
    Kept item next.items := by
  rcases step_items hstep with hsame | ⟨call, hcall⟩
  · rwa [hsame]
  rcases h with hitem | hgone
  · exact queue_keeps hcall hitem
  · obtain ⟨htaken, hremoved⟩ := @after_gone F D s.items next.items [call] (by rw [after_cons hcall]; rfl)
    exact Or.inr (hgone.imp (fun hmem => htaken.subset hmem) fun hmem => hremoved.subset hmem)

/-! ## The steps of the others -/

theorem Worker.wake_of_awake {worker : Worker} (h : ∀ milliseconds, worker ≠ .asleep milliseconds) : worker.wake = worker := by
  cases worker with
  | asleep milliseconds => exact absurd rfl (h milliseconds)
  | _ => rfl

/-- A worker that is not asleep is not moved by the others. -/
theorem Others.same (h : Others s next) (hawake : ∀ milliseconds, s.worker ≠ .asleep milliseconds) : next.worker = s.worker := by
  rcases h.worker with hsame | hwoken
  · exact hsame
  · rw [hwoken, Worker.wake_of_awake hawake]

/-! ## The worker has ended its round -/

/-- The worker is told to end and takes nothing more. -/
structure Leaving (taken : List Nat) (s : State F D) : Prop where
  taken : s.items.taken = taken
  leaves : s.worker.Leaves
  told : s.worker = .loopTest → s.waitingToDestroy = true

theorem Worker.Leaves.awake {worker : Worker} (h : worker.Leaves) (milliseconds : UInt64) : worker ≠ .asleep milliseconds := by
  intro heq
  rw [heq] at h
  exact h

theorem Leaving.step {taken : List Nat} (h : Leaving taken s) (hstep : s.step event = some next) : Leaving taken next := by
  rcases step_others hstep with ⟨tv, rfl, hworker⟩ | hothers
  · have hleaves := h.leaves
    cases workerStep_cases hworker with
    | tests hplace =>
      refine ⟨h.taken, ?_, fun heq => ?_⟩
      · rw [h.told hplace]
        trivial
      · rw [h.told hplace] at heq
        cases heq
    | ends hplace hfree => exact ⟨h.taken, trivial, fun heq => by cases heq⟩
    | locks hplace => exact (hplace ▸ hleaves : Worker.waitLock.Leaves).elim
    | returns hplace => exact (hplace ▸ hleaves : Worker.waitTest.Leaves).elim
    | decides hplace => exact (hplace ▸ hleaves : Worker.waitTest.Leaves).elim
    | sleeps milliseconds hplace => exact (hplace ▸ hleaves : (Worker.decided milliseconds).Leaves).elim
    | begins items hplace => exact (hplace ▸ hleaves : Worker.executeLock.Leaves).elim
    | gets items item hplace => exact (hplace ▸ hleaves : Worker.getOne.Leaves).elim
    | finishes items hplace => exact (hplace ▸ hleaves : Worker.getOne.Leaves).elim
    | ran number hplace => exact (hplace ▸ hleaves : (Worker.running number).Leaves).elim
  · have hsame := hothers.same h.leaves.awake
    exact ⟨hothers.taken.trans h.taken, by rw [hsame]; exact h.leaves, fun heq => hothers.told (h.told (hsame ▸ heq))⟩

/-! ## The worker is still to look at the queue -/

/-- It does not decide to wait. -/
def Worker.Busy : Worker → Prop
  | .waitLock | .waitTest | .executeLock | .getOne | .running _ => True
  | _ => False

theorem Worker.Busy.awake {worker : Worker} (h : worker.Busy) (milliseconds : UInt64) : worker ≠ .asleep milliseconds := by
  intro heq
  rw [heq] at h
  exact h

theorem Worker.Busy.not_leaves {worker : Worker} (h : worker.Busy) : ¬ worker.Leaves := by
  cases worker <;> first | exact id | exact h.elim

def Gone (item : WorkQueueItem F (Nat × D)) (queue : NumberedQueue F D) : Prop :=
  item.number ∈ queue.taken ∨ item.number ∈ queue.removed

theorem Gone.step {item : WorkQueueItem F (Nat × D)} (h : Gone item s.items) (hstep : s.step event = some next) :
    Gone item next.items := by
  rcases step_items hstep with hsame | ⟨call, hcall⟩
  · rwa [hsame]
  · obtain ⟨htaken, hremoved⟩ := @after_gone F D s.items next.items [call] (by rw [after_cons hcall]; rfl)
    exact h.imp (fun hmem => htaken.subset hmem) fun hmem => hremoved.subset hmem

/-- The worker is told to end, and what is in the queue is gone when it does. -/
structure Staying (item : WorkQueueItem F (Nat × D)) (s : State F D) : Prop where
  told : s.waitingToDestroy = true ∨ s.worker = .ended
  place : s.worker.Busy ∧ Kept item s.items ∨ s.worker.Leaves ∧ Gone item s.items

variable {item : WorkQueueItem F (Nat × D)}

theorem waitRound_told {queue : List (WorkQueueItem F D)} : waitRound queue true tv = .returns := by
  unfold waitRound
  rfl

/-- A round that finds nothing has left nothing that does not wait. -/
theorem Kept.gone {milliseconds : UInt64} (h : Kept item s.items) (htime : item.executeTimeMilliseconds = 0)
    (hnone : (workQueueGetOne milliseconds s.items.queue).1 = none) : Gone item s.items := by
  refine h.resolve_left fun hitem => ?_
  rcases getOne_cases milliseconds s.items.queue with ⟨-, hall⟩ | ⟨before, first, rest, -, hsome, -, -⟩
  · have hlater := hall item hitem
    rw [htime] at hlater
    exact absurd (UInt64.lt_iff_toNat_lt.1 hlater) (Nat.not_lt_zero _)
  · rw [hsome] at hnone
    cases hnone

theorem Staying.workerStep (h : Staying item s) (htime : item.executeTimeMilliseconds = 0) (hstep : s.workerStep tv = some next) :
    Staying item next := by
  have hkept : s.worker.Busy → Kept item next.items := by
    intro hbusy
    refine @Kept.step _ _ _ _ (.worker tv) item (h.place.elim And.right fun hleaves => ?_) hstep
    exact absurd hleaves.1 hbusy.not_leaves
  have hgone : s.worker.Leaves → Gone item next.items := by
    intro hleaves
    refine @Gone.step _ _ _ _ (.worker tv) item (h.place.elim (fun hbusy => ?_) And.right) hstep
    exact absurd hleaves hbusy.1.not_leaves
  have htold : s.worker ≠ .ended → s.waitingToDestroy = true := fun hne => h.told.resolve_right hne
  cases workerStep_cases hstep with
  | tests hplace =>
    have hflag := htold (by rw [hplace]; exact Worker.noConfusion)
    refine ⟨Or.inl hflag, Or.inr ⟨?_, hgone (hplace ▸ trivial)⟩⟩
    rw [hflag]
    trivial
  | locks hplace hfree =>
    exact ⟨Or.inl (htold (by rw [hplace]; exact Worker.noConfusion)), Or.inl ⟨trivial, hkept (hplace ▸ trivial)⟩⟩
  | returns hplace hround =>
    exact ⟨Or.inl (htold (by rw [hplace]; exact Worker.noConfusion)), Or.inl ⟨trivial, hkept (hplace ▸ trivial)⟩⟩
  | decides hplace hround =>
    rw [htold (by rw [hplace]; exact Worker.noConfusion), waitRound_told] at hround
    exact absurd rfl hround
  | begins items hplace hfree hitems =>
    exact ⟨Or.inl (htold (by rw [hplace]; exact Worker.noConfusion)), Or.inl ⟨trivial, hkept (hplace ▸ trivial)⟩⟩
  | gets items item hplace hitem hitems =>
    exact ⟨Or.inl (htold (by rw [hplace]; exact Worker.noConfusion)), Or.inl ⟨trivial, hkept (hplace ▸ trivial)⟩⟩
  | finishes items hplace hnone hitems =>
    have hbefore : Kept item s.items := h.place.elim And.right fun hleaves => (hplace ▸ hleaves.1 : Worker.getOne.Leaves).elim
    refine ⟨Or.inl (htold (by rw [hplace]; exact Worker.noConfusion)), Or.inr ⟨trivial, ?_⟩⟩
    exact @Gone.step _ _ _ _ (.worker tv) item (hbefore.gone htime hnone) hstep
  | ran number hplace =>
    exact ⟨Or.inl (htold (by rw [hplace]; exact Worker.noConfusion)), Or.inl ⟨trivial, hkept (hplace ▸ trivial)⟩⟩
  | ends hplace hfree => exact ⟨Or.inr rfl, Or.inr ⟨trivial, hgone (hplace ▸ trivial)⟩⟩
  | sleeps milliseconds hplace =>
    have hplaces := h.place
    rw [hplace] at hplaces
    exact (hplaces.elim And.left And.left).elim

theorem Staying.awake (h : Staying item s) : ∀ milliseconds, s.worker ≠ .asleep milliseconds := by
  rcases h.place with ⟨hbusy, -⟩ | ⟨hleaves, -⟩
  · exact hbusy.awake
  · exact hleaves.awake

theorem Staying.step (h : Staying item s) (htime : item.executeTimeMilliseconds = 0) (hstep : s.step event = some next) :
    Staying item next := by
  rcases step_others hstep with ⟨tv, rfl, hworker⟩ | hothers
  · exact h.workerStep htime hworker
  · have hsame := hothers.same h.awake
    refine ⟨?_, ?_⟩
    · rw [hsame]
      exact h.told.imp hothers.told id
    · rw [hsame]
      exact h.place.imp (And.imp_right fun hkept => hkept.step hstep) (And.imp_right fun hgone => hgone.step hstep)

/-! ## The end -/

/-- A caller is destroyed where it finds the order taken back. -/
theorem callerStep_destroyed (hstep : s.callerStep i = some next) (h : next.callers i = .destroyed) :
    s.waitingToDestroy = false ∧ next.worker = s.worker := by
  have hset : ∀ caller, caller ≠ .destroyed → (s.setCaller i caller).callers i ≠ .destroyed := fun _ => setCaller_ne
  have hbroadcast : ∀ caller, caller ≠ .destroyed → (s.setCaller i caller).broadcast.callers i ≠ .destroyed :=
    fun _ => broadcast_ne trivial
  cases callerStep_cases hstep with
  | leaves place hplace =>
    rcases hplace with ⟨-, rfl⟩ | ⟨-, rfl⟩ | ⟨-, rfl⟩ | ⟨-, hback, rfl⟩
    · exact absurd h (hset _ (by decide))
    · exact absurd h (hset _ (by decide))
    · exact absurd h (hset _ (by decide))
    · exact ⟨hback, rfl⟩
  | announces hplace => exact absurd h (hbroadcast _ (by decide))
  | orders hplace hfree => exact absurd h (hbroadcast .destroyTest (by decide))
  | takes place hfree hplace =>
    refine absurd h (hset place ?_)
    rcases hplace with ⟨-, rfl⟩ | ⟨-, rfl⟩ <;> decide
  | looks place hplace =>
    refine absurd h (hset place ?_)
    rcases hplace with ⟨-, ⟨-, rfl⟩ | rfl⟩ | ⟨-, rfl⟩ <;> decide

/-- `WorkQueueThreadWaitAndDestroy` returns where the order to end has been taken back. -/
theorem step_destroyed (hstep : s.step event = some next) (h : next.callers i = .destroyed) :
    s.callers i = .destroyed ∨ s.waitingToDestroy = false ∧ next.worker = s.worker := by
  rcases step_inner (show Caller.destroyed.Inner from trivial) hstep h with ⟨-, hcaller⟩ | ⟨-, hbefore⟩
  · exact Or.inr (callerStep_destroyed hcaller h)
  · exact Or.inl hbefore

/-- Who has been told that the thread has ended finds it ended. -/
structure Destroying (item : WorkQueueItem F (Nat × D)) (i : Nat) (s : State F D) : Prop where
  staying : Staying item s
  ended : s.callers i = .destroyed → s.worker = .ended

theorem step_ended (h : s.worker = .ended) (hstep : s.step event = some next) : next.worker = .ended := by
  rcases step_others hstep with ⟨tv, rfl, hworker⟩ | hothers
  · rw [State.workerStep, h] at hworker
    cases hworker
  · rw [hothers.same (by rw [h]; exact fun milliseconds => Worker.noConfusion), h]

theorem Destroying.step (h : Destroying item i s) (htime : item.executeTimeMilliseconds = 0) (hstep : s.step event = some next) :
    Destroying item i next := by
  refine ⟨h.staying.step htime hstep, fun hdestroyed => ?_⟩
  rcases step_destroyed hstep hdestroyed with hbefore | ⟨hback, hsame⟩
  · exact step_ended (h.ended hbefore) hstep
  · rw [hsame]
    refine h.staying.told.resolve_left ?_
    rw [hback]
    exact Bool.noConfusion

/-- Who tells the thread to end finds the worker without the lock. -/
theorem destroyLock_cases (hs : Sound s) (hdestroy : s.callers i = .destroyLock) (hstep : s.step (.caller i) = some next) :
    next.items = s.items ∧ next.waitingToDestroy = true ∧ next.worker = s.worker.wake ∧ next.callers i ≠ .destroyed ∧
      (s.worker.Leaves ∨ s.worker.wake.Busy) := by
  rw [State.step, State.callerStep, hdestroy] at hstep
  dsimp only at hstep
  split at hstep
  · rename_i hfree
    cases hstep
    refine ⟨rfl, rfl, rfl, ?_, ?_⟩
    · exact @broadcast_ne _ _ s i .destroyed .destroyTest trivial (by decide)
    · have hnot := hs.locked.free_worker hfree
      cases hworker : s.worker with
      | loopTest => exact Or.inl trivial
      | endLock => exact Or.inl trivial
      | ended => exact Or.inl trivial
      | waitLock => exact Or.inr trivial
      | asleep milliseconds => exact Or.inr trivial
      | executeLock => exact Or.inr trivial
      | _ =>
        rw [hworker] at hnot
        exact absurd trivial hnot
  · cases hstep

/-- What is in the queue when the thread is told to end, and does not wait for its time and
    is not removed, has been called when `WorkQueueThreadWaitAndDestroy` returns if and only if
    the worker was not at its test of `waitingToDestroy`, or past it. -/
theorem destroy_executes {before later : List (Event F D)} {told : State F D}
    (hrun : after State.step State.start before = some s) (hdestroy : s.callers i = .destroyLock)
    (hlock : s.step (.caller i) = some told) (hrest : after State.step told later = some last)
    (hreturned : last.callers i = .destroyed) (hitem : item ∈ s.items.queue) (htime : item.executeTimeMilliseconds = 0)
    (hkept : item.number ∉ last.items.removed) : item.number ∈ last.items.taken ↔ ¬ s.worker.Leaves := by
  have hs := Sound.run hrun
  obtain ⟨hitems, hflag, hworker, hcaller, hplace⟩ := destroyLock_cases hs hdestroy hlock
  have hfirst : item.number ∉ s.items.taken := by
    intro htaken
    have hnodup := hs.accounted.once.nodup_iff.2 List.nodup_range
    rw [List.append_assoc] at hnodup
    exact (List.nodup_append.1 hnodup).2.2 _ (List.mem_map_of_mem hitem) _ (List.mem_append_left _ htaken) rfl
  by_cases hleaves : s.worker.Leaves
  · have htold : Leaving s.items.taken told := by
      refine ⟨by rw [hitems], ?_, fun _ => hflag⟩
      rw [hworker, Worker.wake_of_awake hleaves.awake]
      exact hleaves
    have hlast := after_inv (fun _ _ _ ht hstep => Leaving.step ht hstep) htold hrest
    refine iff_of_false ?_ (not_not.2 hleaves)
    rwa [hlast.taken]
  · have hbusy := hplace.resolve_left hleaves
    have htold : Destroying item i told := by
      refine ⟨⟨Or.inl hflag, Or.inl ⟨by rwa [hworker], Or.inl (by rwa [hitems])⟩⟩, fun heq => absurd heq hcaller⟩
    have hlast := after_inv (fun _ _ _ ht hstep => Destroying.step ht htime hstep) htold hrest
    have hended := hlast.ended hreturned
    refine iff_of_true ?_ hleaves
    have hplace := hlast.staying.place
    rw [hended] at hplace
    exact ((hplace.resolve_left fun hbusy => hbusy.1).2).resolve_right hkept

/-- An item that is added before the worker begins its first round is thrown away. -/
theorem destroy_executes_none :
    ∃ last : State Unit Unit, last.callers 1 = .destroyed ∧ last.items.added = 1 ∧ last.items.removed = [] ∧ 0 ∉ last.items.taken := by
  let tv : Timeval := ⟨0, 0, by decide⟩
  obtain ⟨s, hs⟩ : ∃ s, after State.step (State.start : State Unit Unit) [.add 0 () (), .caller 0, .waitAndDestroy 1] = some s := ⟨_, rfl⟩
  obtain ⟨told, htold⟩ : ∃ told, s.step (.caller 1) = some told := by
    cases hs
    exact ⟨_, rfl⟩
  obtain ⟨last, hlast⟩ : ∃ last, after State.step told [.worker tv, .caller 1, .caller 1, .worker tv, .caller 1, .caller 1] = some last := by
    cases hs
    cases htold
    exact ⟨_, rfl⟩
  have hdestroy := @destroy_executes Unit Unit s last 1 ⟨(), (0, ()), 0⟩ _ _ told hs (by cases hs; rfl) htold hlast
    (by cases hs; cases htold; cases hlast; rfl) (by cases hs; exact List.mem_singleton_self _) rfl
    (by cases hs; cases htold; cases hlast; exact List.not_mem_nil)
  refine ⟨last, ?_, ?_, ?_, ?_⟩
  · cases hs; cases htold; cases hlast; rfl
  · cases hs; cases htold; cases hlast; rfl
  · cases hs; cases htold; cases hlast; rfl
  · exact fun hmem => hdestroy.1 hmem (by cases hs; trivial)

end BitcoinSpoon.WorkQueueThread
