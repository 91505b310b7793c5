/-
  BitcoinSpoon.Manager.Wakeup — the worker that sleeps beside a ready item
  (`code/WorkQueue.c`).

  `WorkQueueWaitUntilNotEmpty` looks at the queue under `executionLock` and then waits, but
  `WorkQueueAdd` announces its item without that lock. A broadcast between the two reaches
  nobody, and the worker sleeps until the next one comes (`not_attended`). In a run in which
  no last announcement falls there it never sleeps so, and in no other (`attended_iff`).
-/

import BitcoinSpoon.Manager.Worker

namespace BitcoinSpoon.WorkQueueThread

open Loop

variable {F D : Type} {s next last : State F D} {i : Nat} {tv : Timeval} {event : Event F D}

/-- The time the worker read before it decided to wait. -/
def Worker.waits : Worker → Option UInt64
  | .decided milliseconds | .asleep milliseconds => some milliseconds
  | _ => none

def ReadyAt (queue : List (WorkQueueItem F D)) (milliseconds : UInt64) : Prop :=
  ∃ item ∈ queue, item.executeTimeMilliseconds ≤ milliseconds

/-- Once the worker has decided to wait, a ready item is still to be announced. -/
def Attended (s : State F D) : Prop :=
  ∀ milliseconds, s.worker.waits = some milliseconds → ReadyAt s.items.queue milliseconds → ∃ i, s.callers i = .adding

/-- The last announcement of a ready item comes after the worker has decided to wait and
    before it does. -/
def LostWakeup (s : State F D) : Event F D → Prop
  | .caller i => s.callers i = .adding ∧ (∀ j, j ≠ i → s.callers j ≠ .adding) ∧
      ∃ milliseconds, s.worker = .decided milliseconds ∧ ReadyAt s.items.queue milliseconds
  | _ => False

theorem Worker.wake_waits {worker : Worker} {milliseconds : UInt64} (h : worker.wake.waits = some milliseconds) :
    worker = .decided milliseconds := by
  cases worker <;> first | exact congrArg Worker.decided (Option.some.inj h) | cases h

theorem wake_adding {caller : Caller} : caller.wake = .adding ↔ caller = .adding := by cases caller <;> decide

/-- What a round finds when it does not return. -/
theorem waitRound_waits {queue : List (WorkQueueItem F D)} {waitingToDestroy : Bool}
    (h : waitRound queue waitingToDestroy tv ≠ .returns) : waitingToDestroy = false ∧ ¬ ReadyAt queue tv.milliseconds := by
  unfold waitRound at h
  dsimp only at h
  split at h
  · exact absurd rfl h
  rename_i hnot
  rw [Bool.or_eq_true, decide_eq_true_iff, not_or] at hnot
  refine ⟨by simpa using hnot.1, ?_⟩
  rintro ⟨item, hitem, htime⟩
  exact hnot.2 ((lowest_le_iff (List.ne_nil_of_mem hitem) _).2 ⟨item, hitem, htime⟩)

/-- The worker leaves itself no ready item when it decides to wait. -/
theorem workerStep_attended (h : Attended s) (hstep : s.workerStep tv = some next) : Attended next := by
  have hother : ∀ next : State F D, next.worker.waits = none → Attended next := by
    intro next hnone milliseconds hwaits
    rw [hnone] at hwaits
    cases hwaits
  cases workerStep_cases hstep with
  | tests hplace =>
    refine hother _ ?_
    dsimp only
    split <;> rfl
  | decides hplace hround =>
    intro milliseconds hwaits hready
    obtain rfl : tv.milliseconds = milliseconds := Option.some.inj hwaits
    exact absurd hready (waitRound_waits hround).2
  | sleeps milliseconds hplace =>
    intro time hwaits
    exact h time (by rw [hplace]; exact hwaits)
  | _ => exact hother _ rfl

theorem StepsAside.waits (h : StepsAside s next i) {milliseconds : UInt64} (hwaits : next.worker.waits = some milliseconds) :
    s.worker.waits = some milliseconds := by
  rcases h.worker with hsame | hwoken
  · rwa [hsame] at hwaits
  · rw [hwoken] at hwaits
    rw [Worker.wake_waits hwaits]
    rfl

theorem StepsAside.adding (h : StepsAside s next i) {j : Nat} (hj : j ≠ i) : next.callers j = .adding ↔ s.callers j = .adding := by
  rcases h.others j hj with hsame | hwoken
  · rw [hsame]
  · rw [hwoken, wake_adding]

/-- A caller that announces nothing leaves what the others have to announce. -/
theorem StepsAside.attended (h : StepsAside s next i) (hs : Attended s) (hcaller : s.callers i ≠ .adding) : Attended next := by
  intro milliseconds hwaits hready
  rw [h.items] at hready
  obtain ⟨j, hj⟩ := hs milliseconds (h.waits hwaits) hready
  have hne : j ≠ i := by
    intro heq
    rw [heq] at hj
    exact hcaller hj
  exact ⟨j, (h.adding hne).2 hj⟩

theorem announce_attended (hadding : s.callers i = .adding) :
    Attended (s.setCaller i .idle).broadcast ↔ ¬ LostWakeup s (.caller i) := by
  have haside := broadcast_aside s i .idle
  constructor
  · rintro hnext ⟨-, halone, milliseconds, hworker, hready⟩
    have hwaits : (s.setCaller i .idle).broadcast.worker.waits = some milliseconds := by
      show s.worker.wake.waits = _
      rw [hworker]
      rfl
    obtain ⟨j, hj⟩ := hnext milliseconds hwaits hready
    by_cases hji : j = i
    · subst hji
      have hidle : (s.setCaller j .idle).callers j = .idle := Function.update_self _ _ _
      rw [State.broadcast, wake_adding, hidle] at hj
      cases hj
    · exact halone j hji ((haside.adding hji).1 hj)
  · intro hnot milliseconds hwaits hready
    by_contra hnone
    refine hnot ⟨hadding, fun j hj hother => hnone ⟨j, (haside.adding hj).2 hother⟩, milliseconds, ?_, hready⟩
    exact Worker.wake_waits hwaits

theorem begin_attended {call : QueueCall F D} {caller : Caller} (hs : Attended s) (hstep : s.begin i call caller = some next)
    (hqueue : ∀ items, s.items.step call = some items → caller = .adding ∨ items.queue ⊆ s.items.queue) : Attended next := by
  obtain ⟨hidle, items, hitems, rfl⟩ := begin_cases hstep
  intro milliseconds hwaits hready
  rcases hqueue items hitems with hadding | hsub
  · exact ⟨i, (Function.update_self _ _ _).trans hadding⟩
  · obtain ⟨item, hitem, htime⟩ := hready
    obtain ⟨j, hj⟩ := hs milliseconds hwaits ⟨item, hsub hitem, htime⟩
    have hne : j ≠ i := by
      intro heq
      rw [heq, hidle] at hj
      cases hj
    exact ⟨j, (setCaller_others hne).trans hj⟩

/-- Only a broadcast before the wait leaves a ready item unattended. -/
theorem step_attended (hs : Attended s) (hstep : s.step event = some next) : Attended next ↔ ¬ LostWakeup s event := by
  have hidle : ∀ {i caller}, (if s.callers i = .idle then some (s.setCaller i caller) else none) = some next → Attended next := by
    intro i caller hstep
    split at hstep
    · rename_i hidle
      cases hstep
      exact (setCaller_aside s i _).attended hs (hidle ▸ Caller.noConfusion)
    · cases hstep
  cases event with
  | add i function dict => exact iff_of_true (begin_attended hs hstep fun _ _ => Or.inl rfl) id
  | addDelayed i function dict delay clock => exact iff_of_true (begin_attended hs hstep fun _ _ => Or.inl rfl) id
  | remove i removalTest =>
    refine iff_of_true (begin_attended hs hstep fun items hitems => Or.inr ?_) id
    cases hitems
    exact fun item hitem => List.mem_of_mem_filter hitem
  | waitUntilEmpty i => exact iff_of_true (hidle hstep) id
  | waitAndDestroy i => exact iff_of_true (hidle hstep) id
  | caller i =>
    by_cases hadding : s.callers i = .adding
    · rw [State.step, State.callerStep, hadding] at hstep
      cases hstep
      exact announce_attended hadding
    · exact iff_of_true ((callerStep_aside hstep).attended hs hadding) fun hlost => hadding hlost.1
  | worker tv => exact iff_of_true (workerStep_attended hs hstep) id
  | wake thread =>
    refine iff_of_true ?_ id
    rcases wake_cases hstep with ⟨-, hne, rfl⟩ | ⟨i, -, hne, rfl⟩
    · intro milliseconds hwaits hready
      have hdecided : s.worker = .decided milliseconds := Worker.wake_waits hwaits
      rw [hdecided] at hne
      exact absurd rfl hne
    · refine (setCaller_aside s i _).attended hs ?_
      intro hadding
      rw [hadding] at hne
      exact hne rfl

/-- An item that is added and announced while the worker is about to wait is left beside it. -/
theorem lost_wakeup {milliseconds : UInt64} (hworker : s.worker = .decided milliseconds) (halone : ∀ j, s.callers j = .idle)
    (i : Nat) (function : F) (dict : D) (tv : Timeval) :
    ∃ last, after State.step s [.add i function dict, .caller i, .worker tv] = some last ∧
      last.worker = .asleep milliseconds ∧ ReadyAt last.items.queue milliseconds ∧ ∀ j, last.callers j = .idle := by
  let item : WorkQueueItem F (Nat × D) := ⟨function, (s.items.added, dict), 0⟩
  let items : NumberedQueue F D := { s.items with queue := s.items.queue ++ [item], added := s.items.added + 1 }
  have hadd : s.step (.add i function dict) = some { s.setCaller i .adding with items := items } := by
    rw [State.step, State.begin, if_pos (halone i)]
    rfl
  have hadding : ({ s.setCaller i .adding with items := items } : State F D).callers i = .adding := Function.update_self _ _ _
  have hannounce : ({ s.setCaller i .adding with items := items } : State F D).step (.caller i) =
      some (({ s.setCaller i .adding with items := items } : State F D).setCaller i .idle).broadcast := by
    rw [State.step, State.callerStep, hadding]
  have hdecided : (({ s.setCaller i .adding with items := items } : State F D).setCaller i .idle).broadcast.worker =
      .decided milliseconds := by
    show s.worker.wake = _
    rw [hworker]
    rfl
  refine ⟨_, by rw [after_cons hadd, after_cons hannounce, after_cons (show State.step _ (.worker tv) = some _ by
    rw [State.step, State.workerStep, hdecided])]; rfl, rfl, ?_, fun j => ?_⟩
  · refine ⟨item, List.mem_append_right _ (List.mem_singleton_self _), ?_⟩
    exact UInt64.le_iff_toNat_le.2 (Nat.zero_le _)
  · show Caller.wake (Function.update (Function.update s.callers i .adding) i .idle j) = .idle
    rw [Function.update_idem]
    by_cases hj : j = i
    · rw [hj, Function.update_self]
      rfl
    · rw [Function.update_of_ne hj, halone]
      rfl

theorem workerStep_waits (hworker : s.worker = .waitTest) (hround : waitRound s.items.queue s.waitingToDestroy tv = .waits) :
    s.step (.worker tv) = some { s with worker := .decided tv.milliseconds } := by
  rw [State.step, State.workerStep, hworker]
  dsimp only
  rw [hround]

/-- The worker that sleeps beside a ready item is reached. -/
theorem not_attended : ¬ ∀ events : List (Event Unit Unit), Throughout State.step Attended State.start events := by
  intro h
  let tv : Timeval := ⟨0, 0, by decide⟩
  have hround : waitRound ([] : List (WorkQueueItem Unit (Nat × Unit))) false tv = .waits := by
    have hlater : ¬ UINT64_MAX ≤ tv.milliseconds := by decide
    simp [waitRound, lowestExecuteTime, hlater]
  let decided : State Unit Unit := ⟨numberedNew, some .worker, false, .decided tv.milliseconds, fun _ => .idle⟩
  have hdecided : after State.step State.start [.worker tv, .worker tv, .worker tv] = some decided := by
    rw [after_cons rfl, after_cons rfl, after_cons (workerStep_waits rfl hround)]
    rfl
  have hidle : ∀ j, decided.callers j = .idle := fun _ => rfl
  obtain ⟨last, hlast, hasleep, hready, hcallers⟩ := lost_wakeup rfl hidle 0 () () tv
  have hrun : after State.step State.start ([.worker tv, .worker tv, .worker tv] ++ [.add 0 () (), .caller 0, .worker tv]) =
      some last := by
    rw [after, List.foldlM_append]
    exact Option.bind_eq_some_iff.2 ⟨decided, hdecided, hlast⟩
  obtain ⟨j, hj⟩ := h _ _ List.prefix_rfl last hrun tv.milliseconds (by rw [hasleep]; rfl) hready
  rw [hcallers j] at hj
  cases hj

end BitcoinSpoon.WorkQueueThread
