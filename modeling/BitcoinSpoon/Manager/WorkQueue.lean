/-
  BitcoinSpoon.Manager.WorkQueue — a queue of functions to be called (`code/WorkQueue.c`).

  `WorkQueueExecuteAll` takes the first item whose time has come and calls its function,
  until no such item is left. The function may add and remove items and call
  `WorkQueueExecuteAll` again, and other threads may add and remove meanwhile; so a run is
  any row of additions, removals, calls of `WorkQueueExecuteAll` and rounds of its loop.
  A round that finds nothing ends the last call that has not returned.

  Nothing looks at where an item comes from, so every item can carry the number of its
  addition (`after_plain`). Each number is then in one place, waiting, taken or removed, and
  in no place twice (`Accounted`).
-/

import BitcoinSpoon.Loop.Runs
import Mathlib.Algebra.Group.Nat.Defs
import Mathlib.Data.List.Perm.Basic
import Mathlib.Data.List.Range

namespace BitcoinSpoon

open Loop

variable {F D : Type}

/-- A function, what it is called with and the time it waits for. -/
structure WorkQueueItem (F D : Type) where
  function : F
  dict : D
  executeTimeMilliseconds : UInt64

/-- `clock` is `gettimeofday` in milliseconds. -/
def workQueueAddDelayed (queue : List (WorkQueueItem F D)) (function : F) (dict : D) (delayMilliseconds clock : UInt64) :
    List (WorkQueueItem F D) :=
  queue ++ [⟨function, dict, if delayMilliseconds ≠ 0 then delayMilliseconds + clock else delayMilliseconds⟩]

/-- Without a delay the clock is not read. -/
def workQueueAdd (queue : List (WorkQueueItem F D)) (function : F) (dict : D) : List (WorkQueueItem F D) :=
  workQueueAddDelayed queue function dict 0 0

/-- After a removal the loop looks at the same index again. -/
def workQueueRemove (queue : List (WorkQueueItem F D)) (removalTest : F → D → Bool) : List (WorkQueueItem F D) :=
  queue.filter fun item => !removalTest item.function item.dict

/-- The first item whose time has come, and the queue without it. -/
def workQueueGetOne (milliseconds : UInt64) : List (WorkQueueItem F D) → Option (WorkQueueItem F D) × List (WorkQueueItem F D)
  | [] => (none, [])
  | item :: queue =>
    if item.executeTimeMilliseconds ≤ milliseconds then (some item, queue)
    else
      let (result, queue) := workQueueGetOne milliseconds queue
      (result, item :: queue)

/-! ## Runs -/

inductive QueueCall (F D : Type) where
  | add (function : F) (dict : D)
  | addDelayed (function : F) (dict : D) (delayMilliseconds clock : UInt64)
  | remove (removalTest : F → D → Bool)
  | executeAll
  | getOne (milliseconds : UInt64)

/-- `executing` calls of `WorkQueueExecuteAll` have not returned. -/
structure WorkQueue (F D : Type) where
  queue : List (WorkQueueItem F D)
  executing : Nat

def workQueueNew : WorkQueue F D := ⟨[], 0⟩

def WorkQueue.step (self : WorkQueue F D) : QueueCall F D → Option (WorkQueue F D)
  | .add function dict => some { self with queue := workQueueAdd self.queue function dict }
  | .addDelayed function dict delay clock => some { self with queue := workQueueAddDelayed self.queue function dict delay clock }
  | .remove removalTest => some { self with queue := workQueueRemove self.queue removalTest }
  | .executeAll => some { self with executing := self.executing + 1 }
  | .getOne milliseconds =>
    if self.executing = 0 then none
    else
      match workQueueGetOne milliseconds self.queue with
      | (none, queue) => some ⟨queue, self.executing - 1⟩
      | (some _, queue) => some ⟨queue, self.executing⟩

/-- A queue whose items carry the numbers of their additions, the numbers in the order their
    functions were called, and those removed. -/
structure NumberedQueue (F D : Type) extends WorkQueue F (Nat × D) where
  added : Nat
  taken : List Nat
  removed : List Nat

def WorkQueueItem.number (item : WorkQueueItem F (Nat × D)) : Nat := item.dict.1

def numberedNew : NumberedQueue F D := ⟨workQueueNew, 0, [], []⟩

def NumberedQueue.step (self : NumberedQueue F D) : QueueCall F D → Option (NumberedQueue F D)
  | .add function dict => some { self with queue := workQueueAdd self.queue function (self.added, dict), added := self.added + 1 }
  | .addDelayed function dict delay clock =>
    some { self with queue := workQueueAddDelayed self.queue function (self.added, dict) delay clock, added := self.added + 1 }
  | .remove removalTest =>
    some { self with
      queue := workQueueRemove self.queue fun function dict => removalTest function dict.2
      removed := self.removed ++ (self.queue.filter fun item => removalTest item.function item.dict.2).map WorkQueueItem.number }
  | .executeAll => some { self with executing := self.executing + 1 }
  | .getOne milliseconds =>
    if self.executing = 0 then none
    else
      match workQueueGetOne milliseconds self.queue with
      | (none, queue) => some { self with queue := queue, executing := self.executing - 1 }
      | (some item, queue) => some { self with queue := queue, taken := self.taken ++ [item.number] }

/-- The item without its number. -/
def WorkQueueItem.plain (item : WorkQueueItem F (Nat × D)) : WorkQueueItem F D :=
  ⟨item.function, item.dict.2, item.executeTimeMilliseconds⟩

def NumberedQueue.plain (self : NumberedQueue F D) : WorkQueue F D := ⟨self.queue.map WorkQueueItem.plain, self.executing⟩

/-! ## Numbers change nothing -/

theorem getOne_plain (milliseconds : UInt64) (queue : List (WorkQueueItem F (Nat × D))) :
    workQueueGetOne milliseconds (queue.map WorkQueueItem.plain) =
      ((workQueueGetOne milliseconds queue).1.map WorkQueueItem.plain, (workQueueGetOne milliseconds queue).2.map WorkQueueItem.plain) := by
  induction queue with
  | nil => rfl
  | cons item queue ih =>
    rw [List.map_cons, workQueueGetOne, workQueueGetOne, ih]
    by_cases hready : item.executeTimeMilliseconds ≤ milliseconds
    · rw [if_pos hready, if_pos (show item.plain.executeTimeMilliseconds ≤ milliseconds from hready)]
      rfl
    · rw [if_neg hready, if_neg (show ¬ item.plain.executeTimeMilliseconds ≤ milliseconds from hready)]
      rfl

theorem step_plain (self : NumberedQueue F D) (call : QueueCall F D) :
    (self.step call).map NumberedQueue.plain = self.plain.step call := by
  cases call with
  | add function dict => simp [NumberedQueue.step, WorkQueue.step, NumberedQueue.plain, workQueueAdd, workQueueAddDelayed, WorkQueueItem.plain]
  | addDelayed function dict delay clock =>
    simp [NumberedQueue.step, WorkQueue.step, NumberedQueue.plain, workQueueAddDelayed, WorkQueueItem.plain]
  | remove removalTest =>
    simp only [NumberedQueue.step, WorkQueue.step, NumberedQueue.plain, workQueueRemove, Option.map_some, List.filter_map]
    rfl
  | executeAll => rfl
  | getOne milliseconds =>
    rw [NumberedQueue.step, WorkQueue.step]
    have hplain := getOne_plain milliseconds self.queue
    by_cases hidle : self.executing = 0
    · rw [if_pos hidle, if_pos (show self.plain.executing = 0 from hidle)]
      rfl
    · rw [if_neg hidle, if_neg (show ¬ self.plain.executing = 0 from hidle), NumberedQueue.plain]
      dsimp only
      rw [hplain]
      rcases workQueueGetOne milliseconds self.queue with ⟨_ | item, queue⟩
      · rfl
      · rfl

theorem after_plain (self : NumberedQueue F D) (calls : List (QueueCall F D)) :
    (after NumberedQueue.step self calls).map NumberedQueue.plain = after WorkQueue.step self.plain calls := by
  induction calls generalizing self with
  | nil => rfl
  | cons call calls ih =>
    rw [after, after, List.foldlM_cons, List.foldlM_cons, ← step_plain]
    cases self.step call with
    | none => rfl
    | some next => exact ih next

/-! ## The round of the loop -/

/-- What comes before the item taken has to wait; without one everything has to. -/
theorem getOne_cases (milliseconds : UInt64) (queue : List (WorkQueueItem F D)) :
    (workQueueGetOne milliseconds queue = (none, queue) ∧ ∀ item ∈ queue, milliseconds < item.executeTimeMilliseconds) ∨
      ∃ before item rest, queue = before ++ item :: rest ∧ workQueueGetOne milliseconds queue = (some item, before ++ rest) ∧
        item.executeTimeMilliseconds ≤ milliseconds ∧ ∀ other ∈ before, milliseconds < other.executeTimeMilliseconds := by
  induction queue with
  | nil => exact Or.inl ⟨rfl, fun item hitem => by cases hitem⟩
  | cons first queue ih =>
    rw [workQueueGetOne]
    by_cases hready : first.executeTimeMilliseconds ≤ milliseconds
    · rw [if_pos hready]
      exact Or.inr ⟨[], first, queue, rfl, rfl, hready, fun other hother => by cases hother⟩
    · rw [if_neg hready]
      have hfirst : milliseconds < first.executeTimeMilliseconds := UInt64.not_le.1 hready
      rcases ih with ⟨hnone, hall⟩ | ⟨before, item, rest, hqueue, hsome, htime, hbefore⟩
      · rw [hnone]
        exact Or.inl ⟨rfl, List.forall_mem_cons.2 ⟨hfirst, hall⟩⟩
      · rw [hsome]
        exact Or.inr ⟨first :: before, item, rest, by rw [hqueue]; rfl, rfl, htime, List.forall_mem_cons.2 ⟨hfirst, hbefore⟩⟩

/-! ## Every item is in one place -/

/-- Every number given is waiting, taken or removed, once; and the queue is in the order of
    the additions. -/
structure Accounted (queue : NumberedQueue F D) : Prop where
  once : (queue.queue.map WorkQueueItem.number ++ queue.taken ++ queue.removed).Perm (List.range queue.added)
  ordered : (queue.queue.map WorkQueueItem.number).Pairwise (· < ·)

/-- A round leaves nothing that was ready before what it takes, and takes nothing early; one
    that takes nothing leaves nothing that is ready. What is added with a delay waits for it,
    as far as the time is a `uint64_t`. -/
def InOrder (self : NumberedQueue F D) : QueueCall F D → Prop
  | .getOne milliseconds =>
    match workQueueGetOne milliseconds self.queue with
    | (none, queue) => queue = self.queue ∧ ∀ item ∈ queue, milliseconds < item.executeTimeMilliseconds
    | (some item, queue) => item.executeTimeMilliseconds ≤ milliseconds ∧
        ∀ other ∈ queue, other.number < item.number → milliseconds < other.executeTimeMilliseconds
  | .addDelayed function dict delay clock => ∃ item : WorkQueueItem F (Nat × D),
      workQueueAddDelayed self.queue function (self.added, dict) delay clock = self.queue ++ [item] ∧
        (delay ≠ 0 → delay.toNat + clock.toNat < 2 ^ 64 → item.executeTimeMilliseconds.toNat = delay.toNat + clock.toNat)
  | _ => True

variable {self next final : NumberedQueue F D} {call : QueueCall F D}

theorem Accounted.lt_added (h : Accounted self) {item : WorkQueueItem F (Nat × D)} (hitem : item ∈ self.queue) :
    item.number < self.added := by
  refine List.mem_range.1 (h.once.mem_iff.1 ?_)
  rw [List.append_assoc]
  exact List.mem_append_left _ (List.mem_map_of_mem hitem)

theorem accounted_add (h : Accounted self) (item : WorkQueueItem F (Nat × D)) (hitem : item.number = self.added) :
    Accounted { self with queue := self.queue ++ [item], added := self.added + 1 } := by
  constructor
  · have hmove : (self.queue.map WorkQueueItem.number ++ [self.added] ++ self.taken ++ self.removed).Perm
        (self.queue.map WorkQueueItem.number ++ self.taken ++ self.removed ++ [self.added]) := by
      rw [List.append_assoc, List.append_assoc, List.append_assoc, List.append_assoc]
      refine List.Perm.append_left _ ?_
      rw [← List.append_assoc self.taken]
      exact List.perm_append_comm
    dsimp only
    rw [List.map_append, List.map_singleton, hitem, List.range_succ]
    exact hmove.trans (h.once.append_right _)
  · dsimp only
    rw [List.map_append, List.pairwise_append]
    refine ⟨h.ordered, List.pairwise_singleton _ _, fun a ha b hb => ?_⟩
    obtain ⟨waiting, hwaiting, rfl⟩ := List.mem_map.1 ha
    rw [List.map_singleton, List.mem_singleton, hitem] at hb
    rw [hb]
    exact h.lt_added hwaiting

theorem step_accounted (h : Accounted self) (hstep : self.step call = some next) : Accounted next := by
  cases call with
  | add function dict =>
    cases hstep
    exact accounted_add h _ rfl
  | addDelayed function dict delay clock =>
    cases hstep
    exact accounted_add h _ rfl
  | remove removalTest =>
    cases hstep
    constructor
    · have hsplit := (List.filter_append_perm (fun item : WorkQueueItem F (Nat × D) => removalTest item.function item.dict.2)
        self.queue).map WorkQueueItem.number
      refine List.Perm.trans ?_ h.once
      refine List.Perm.trans ?_ ((hsplit.append_right self.taken).append_right self.removed)
      dsimp only [workQueueRemove]
      rw [List.map_append]
      refine List.perm_iff_count.2 fun n => ?_
      simp only [List.count_append]
      omega
    · exact h.ordered.sublist (List.Sublist.map _ List.filter_sublist)
  | executeAll =>
    cases hstep
    exact ⟨h.once, h.ordered⟩
  | getOne milliseconds =>
    rw [NumberedQueue.step] at hstep
    split at hstep
    · cases hstep
    rcases getOne_cases milliseconds self.queue with ⟨hnone, -⟩ | ⟨before, item, rest, hqueue, hsome, -, -⟩
    · rw [hnone] at hstep
      cases hstep
      exact ⟨h.once, h.ordered⟩
    · rw [hsome] at hstep
      cases hstep
      have honce := h.once
      have hordered := h.ordered
      rw [hqueue] at honce hordered
      constructor
      · refine List.Perm.trans (List.perm_iff_count.2 fun n => ?_) honce
        simp only [List.map_append, List.map_cons, List.count_append, List.count_cons, List.count_nil]
        omega
      · refine hordered.sublist (List.Sublist.map _ ?_)
        exact List.Sublist.append_left (List.sublist_cons_self item rest) before

theorem step_inOrder (h : Accounted self) (call : QueueCall F D) : InOrder self call := by
  cases call with
  | add function dict => trivial
  | addDelayed function dict delay clock =>
    refine ⟨_, rfl, fun hdelay hfits => ?_⟩
    dsimp only
    rw [if_pos hdelay, UInt64.toNat_add, Nat.mod_eq_of_lt hfits]
  | remove removalTest => trivial
  | executeAll => trivial
  | getOne milliseconds =>
    rw [InOrder]
    rcases getOne_cases milliseconds self.queue with ⟨hnone, hall⟩ | ⟨before, item, rest, hqueue, hsome, htime, hbefore⟩
    · rw [hnone]
      exact ⟨rfl, hall⟩
    · rw [hsome]
      refine ⟨htime, fun other hother hlt => ?_⟩
      rcases List.mem_append.1 hother with hother | hother
      · exact hbefore other hother
      · -- what comes after the item was added after it
        have hordered := h.ordered
        rw [hqueue, List.map_append, List.map_cons, List.pairwise_append, List.pairwise_cons] at hordered
        have hlater := hordered.2.1.1 other.number (List.mem_map_of_mem hother)
        omega

/-- Where an item has gone it stays. -/
theorem after_gone {calls : List (QueueCall F D)} (h : after NumberedQueue.step self calls = some final) :
    self.taken <+: final.taken ∧ self.removed <+: final.removed := by
  refine @after_inv _ _ _ (fun queue : NumberedQueue F D => self.taken <+: queue.taken ∧ self.removed <+: queue.removed) ?_ _ _ _
    ⟨List.prefix_refl _, List.prefix_refl _⟩ h
  rintro queue call next ⟨htaken, hremoved⟩ hstep
  cases call with
  | add function dict =>
    cases hstep
    exact ⟨htaken, hremoved⟩
  | addDelayed function dict delay clock =>
    cases hstep
    exact ⟨htaken, hremoved⟩
  | remove removalTest =>
    cases hstep
    exact ⟨htaken, hremoved.trans (List.prefix_append _ _)⟩
  | executeAll =>
    cases hstep
    exact ⟨htaken, hremoved⟩
  | getOne milliseconds =>
    rw [NumberedQueue.step] at hstep
    split at hstep
    · cases hstep
    split at hstep
    · cases hstep
      exact ⟨htaken, hremoved⟩
    · cases hstep
      exact ⟨htaken.trans (List.prefix_append _ _), hremoved⟩

/-! ## Ready items run -/

def QueueCall.isGetOne : QueueCall F D → Bool
  | .getOne _ => true
  | _ => false

/-- The items that are taken first if they are ready. -/
def NumberedQueue.ahead (self : NumberedQueue F D) (number : Nat) : List (WorkQueueItem F (Nat × D)) :=
  self.queue.filter fun item => item.number < number

/-- As long as a ready item waits, each round takes one of those ahead of it. -/
theorem step_ahead (h : Accounted self) {item : WorkQueueItem F (Nat × D)} (hitem : item ∈ self.queue) {clock : UInt64}
    (hready : item.executeTimeMilliseconds ≤ clock) (hclock : ∀ milliseconds, call = .getOne milliseconds → clock ≤ milliseconds)
    (hstep : self.step call = some next) :
    (item.number ∈ next.taken ∨ item.number ∈ next.removed) ∨
      item ∈ next.queue ∧ (next.ahead item.number).length + (if call.isGetOne then 1 else 0) ≤ (self.ahead item.number).length := by
  have hadd : ∀ new : WorkQueueItem F (Nat × D), new.number = self.added →
      ((self.queue ++ [new]).filter fun other => other.number < item.number).length ≤ (self.ahead item.number).length := by
    intro new hnew
    have hlt := h.lt_added hitem
    rw [List.filter_append, List.filter_singleton, hnew, decide_eq_false (by omega)]
    simp [NumberedQueue.ahead]
  cases call with
  | add function dict =>
    cases hstep
    exact Or.inr ⟨List.mem_append_left _ hitem, hadd _ rfl⟩
  | addDelayed function dict delay clock' =>
    cases hstep
    exact Or.inr ⟨List.mem_append_left _ hitem, hadd _ rfl⟩
  | remove removalTest =>
    cases hstep
    by_cases htest : removalTest item.function item.dict.2 = true
    · refine Or.inl (Or.inr (List.mem_append_right _ ?_))
      exact List.mem_map_of_mem (List.mem_filter.2 ⟨hitem, htest⟩)
    · refine Or.inr ⟨List.mem_filter.2 ⟨hitem, by simpa using htest⟩, ?_⟩
      exact (List.Sublist.filter _ List.filter_sublist).length_le
  | executeAll =>
    cases hstep
    exact Or.inr ⟨hitem, Nat.le_refl _⟩
  | getOne milliseconds =>
    have hdue : ¬ milliseconds < item.executeTimeMilliseconds :=
      UInt64.not_lt.2 (UInt64.le_trans hready (hclock milliseconds rfl))
    rw [NumberedQueue.step] at hstep
    split at hstep
    · cases hstep
    rcases getOne_cases milliseconds self.queue with ⟨-, hall⟩ | ⟨before, first, rest, hqueue, hsome, -, hbefore⟩
    · exact absurd (hall item hitem) hdue
    rw [hsome] at hstep
    cases hstep
    rw [hqueue] at hitem
    rcases List.mem_append.1 hitem with hitem | hitem
    · exact absurd (hbefore item hitem) hdue
    rcases List.mem_cons.1 hitem with rfl | hitem
    · exact Or.inl (Or.inl (List.mem_append_right _ List.mem_cons_self))
    · have hordered := h.ordered
      rw [hqueue, List.map_append, List.map_cons, List.pairwise_append, List.pairwise_cons] at hordered
      have hfirst : first.number < item.number := hordered.2.1.1 item.number (List.mem_map_of_mem hitem)
      refine Or.inr ⟨List.mem_append_right _ hitem, ?_⟩
      rw [NumberedQueue.ahead, NumberedQueue.ahead, hqueue]
      dsimp only [QueueCall.isGetOne]
      rw [List.filter_append, List.filter_append, List.filter_cons_of_pos (by simpa using hfirst)]
      simp only [List.length_append, List.length_cons, if_true]
      omega

/-- An item that is ready has been taken, or removed, after as many more rounds as there are
    items ahead of it. -/
theorem ready_runs (h : Accounted self) {item : WorkQueueItem F (Nat × D)} (hitem : item ∈ self.queue) {clock : UInt64}
    (hready : item.executeTimeMilliseconds ≤ clock) {calls : List (QueueCall F D)}
    (hclocks : ∀ milliseconds, .getOne milliseconds ∈ calls → clock ≤ milliseconds)
    (hrun : after NumberedQueue.step self calls = some final)
    (hrounds : (self.ahead item.number).length < calls.countP QueueCall.isGetOne) :
    item.number ∈ final.taken ∨ item.number ∈ final.removed := by
  induction calls generalizing self with
  | nil => cases hrounds
  | cons call calls ih =>
    obtain ⟨next, hnext, hrest⟩ := Option.bind_eq_some_iff.1 hrun
    have hclock : ∀ milliseconds, call = .getOne milliseconds → clock ≤ milliseconds := by
      rintro milliseconds rfl
      exact hclocks milliseconds List.mem_cons_self
    rcases step_ahead h hitem hready hclock hnext with hgone | ⟨hwaits, hahead⟩
    · obtain ⟨htaken, hremoved⟩ := after_gone hrest
      exact hgone.imp (fun hmem => htaken.subset hmem) fun hmem => hremoved.subset hmem
    · refine ih (step_accounted h hnext) hwaits (fun milliseconds hmem => hclocks milliseconds (List.mem_cons_of_mem _ hmem)) hrest ?_
      rw [List.countP_cons] at hrounds
      omega

theorem accounted_new : Accounted (numberedNew : NumberedQueue F D) := ⟨List.Perm.refl [], List.Pairwise.nil⟩

theorem after_accounted {calls : List (QueueCall F D)} (h : after NumberedQueue.step numberedNew calls = some final) : Accounted final :=
  after_inv (fun _ _ _ => step_accounted) accounted_new h

/-- What has been removed is not taken. -/
theorem Accounted.removed_not_taken (h : Accounted self) {number : Nat} (hremoved : number ∈ self.removed) : number ∉ self.taken := by
  intro htaken
  have hnodup := h.once.nodup_iff.2 List.nodup_range
  exact (List.nodup_append.1 hnodup).2.2 number (List.mem_append_right _ htaken) number hremoved rfl

/-- In every run each item is in one place, once; each round of the loop takes the first item
    that is ready and takes none early; what was removed is never taken later; and what is
    ready runs after a bounded number of rounds, unless it is removed. -/
theorem work_queue_order {calls : List (QueueCall F D)} {reached : WorkQueue F D}
    (h : after WorkQueue.step workQueueNew calls = some reached) :
    ∃ final : NumberedQueue F D, after NumberedQueue.step numberedNew calls = some final ∧ final.plain = reached ∧
      Accounted final ∧ Along NumberedQueue.step InOrder numberedNew calls ∧
      ∀ before later earlier, before ++ later = calls → after NumberedQueue.step numberedNew before = some earlier →
        (∀ number ∈ earlier.removed, number ∉ final.taken) ∧
          ∀ item ∈ earlier.queue, ∀ clock, item.executeTimeMilliseconds ≤ clock →
            (∀ milliseconds, .getOne milliseconds ∈ later → clock ≤ milliseconds) →
            (earlier.ahead item.number).length < later.countP QueueCall.isGetOne →
            item.number ∈ final.taken ∨ item.number ∈ final.removed := by
  have hplain := after_plain (numberedNew : NumberedQueue F D) calls
  rw [show (numberedNew : NumberedQueue F D).plain = workQueueNew from rfl, h] at hplain
  obtain ⟨final, hfinal, hreached⟩ := Option.map_eq_some_iff.1 hplain
  refine ⟨final, hfinal, hreached, after_accounted hfinal, ?_, ?_⟩
  · exact along_of_always (fun queue call hqueue => step_inOrder hqueue call) (fun _ _ _ => step_accounted) accounted_new calls
  · rintro before later earlier rfl hearlier
    have hrest : after NumberedQueue.step earlier later = some final := by
      rw [after, List.foldlM_append] at hfinal
      obtain ⟨middle, hmiddle, hrest⟩ := Option.bind_eq_some_iff.1 hfinal
      obtain rfl := Option.some.inj (hmiddle.symm.trans hearlier)
      exact hrest
    constructor
    · intro number hnumber
      exact (after_accounted hfinal).removed_not_taken ((after_gone hrest).2.subset hnumber)
    · intro item hitem clock hready hclocks hrounds
      exact ready_runs (after_accounted hearlier) hitem hready hclocks hrest hrounds

/-- A delayed item waits while one that was added later runs. -/
theorem work_queue_order_three : ∃ final : NumberedQueue Unit Nat,
    final.taken = [1, 0] ∧ final.removed = [2] ∧ Accounted final := by
  have hrun : after WorkQueue.step (workQueueNew : WorkQueue Unit Nat)
      [.addDelayed () 10 5 100, .executeAll, .getOne 100, .add () 20, .add () 30, .remove fun _ dict => dict = 30, .executeAll,
        .getOne 101, .getOne 105, .getOne 106] = some ⟨[], 0⟩ := by rfl
  obtain ⟨final, hfinal, -, haccounted, -⟩ := work_queue_order hrun
  refine ⟨final, ?_, ?_, haccounted⟩
  · cases hfinal
    rfl
  · cases hfinal
    rfl

end BitcoinSpoon
