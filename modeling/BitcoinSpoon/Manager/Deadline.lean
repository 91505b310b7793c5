/-
  BitcoinSpoon.Manager.Deadline — how long a thread waits for its queue
  (`WorkQueueWaitUntilNotEmpty`, `code/WorkQueue.c`).

  An item has the time it is due, in milliseconds since 1970. The deadline is made by adding
  it to the clock, its thousands to the seconds and the rest to the microseconds. So the
  deadline is the age of the clock too late, and where the microseconds reach a second it is
  none: `pthread_cond_timedwait` refuses it and the process ends (`waitRound_aborts_iff`).
  It is right in the first second of 1970, at one microsecond of it (`waitsForFirst_iff`).

  One round of the loop is modelled; a thread that is woken begins another one.
-/

import BitcoinSpoon.Manager.WorkQueue
import Mathlib.Algebra.Group.Int.Defs

namespace BitcoinSpoon

variable {F D : Type}

/-- What `gettimeofday` gives. -/
structure Timeval where
  tv_sec : Int64
  tv_usec : Nat
  tv_usec_lt : tv_usec < 10 ^ 6

structure Timespec where
  tv_sec : Int64
  tv_nsec : Nat

/-- `tv.tv_sec * 1000 + tv.tv_usec / 1000`, as an `uint64_t`. -/
def Timeval.milliseconds (tv : Timeval) : UInt64 := (tv.tv_sec * 1000 + Int64.ofNat (tv.tv_usec / 1000)).toUInt64

def UINT64_MAX : UInt64 := 18446744073709551615

def lowestExecuteTime (queue : List (WorkQueueItem F D)) : UInt64 :=
  queue.foldl (fun lowest item => if lowest < item.executeTimeMilliseconds then lowest else item.executeTimeMilliseconds) UINT64_MAX

inductive WaitRound where
  | returns
  /-- `pthread_cond_wait` -/
  | waits
  /-- `pthread_cond_timedwait` -/
  | waitsUntil (ts : Timespec)
  | aborts

/-- `pthread_cond_timedwait` takes the deadline. -/
def Timespec.valid (ts : Timespec) : Bool := ts.tv_nsec < 10 ^ 9

def deadline (lowestExecuteTime : UInt64) (tv : Timeval) : Timespec :=
  let tv_sec := tv.tv_sec + (lowestExecuteTime / 1000).toInt64
  let tv_usec := tv.tv_usec + (lowestExecuteTime % 1000).toNat
  ⟨tv_sec, tv_usec * 1000⟩

/-- A round of `WorkQueueWaitUntilNotEmpty`. -/
def waitRound (queue : List (WorkQueueItem F D)) (waitingToDestroy : Bool) (tv : Timeval) : WaitRound :=
  let lowestExecuteTime := lowestExecuteTime queue
  if waitingToDestroy || lowestExecuteTime ≤ tv.milliseconds then .returns
  else if lowestExecuteTime = UINT64_MAX then .waits
  else if (deadline lowestExecuteTime tv).valid then .waitsUntil (deadline lowestExecuteTime tv)
  else .aborts

/-! ## What a wait is for -/

def Timespec.nanoseconds (ts : Timespec) : Int := ts.tv_sec.toInt * 10 ^ 9 + ts.tv_nsec

/-- The first item is due. -/
def IsFirst (queue : List (WorkQueueItem F D)) (time : UInt64) : Prop :=
  (∃ item ∈ queue, item.executeTimeMilliseconds = time) ∧ ∀ item ∈ queue, time ≤ item.executeTimeMilliseconds

/-- A round that does not return waits, until the first item is due. -/
def WaitsForFirst (queue : List (WorkQueueItem F D)) (waitingToDestroy : Bool) (tv : Timeval) : Prop :=
  waitRound queue waitingToDestroy tv = .returns ∨
    ∃ ts time, waitRound queue waitingToDestroy tv = .waitsUntil ts ∧ ts.tv_nsec < 10 ^ 9 ∧ IsFirst queue time ∧
      ts.nanoseconds = time.toNat * 10 ^ 6

/-- There is nothing to wait for, or it is the first second of 1970 and the microseconds are
    those of the first item. -/
def DeadlineFits (queue : List (WorkQueueItem F D)) (waitingToDestroy : Bool) (tv : Timeval) : Prop :=
  waitingToDestroy = true ∨ (∃ item ∈ queue, item.executeTimeMilliseconds ≤ tv.milliseconds) ∨
    (tv.tv_sec = 0 ∧ ∃ time, IsFirst queue time ∧ time ≠ UINT64_MAX ∧ tv.tv_usec = 999 * (time.toNat % 1000))

variable {queue : List (WorkQueueItem F D)} {waitingToDestroy : Bool} {tv : Timeval}

/-! ## The first item -/

theorem lowest_spec (queue : List (WorkQueueItem F D)) (bound : UInt64) :
    let lowest := queue.foldl
      (fun lowest item => if lowest < item.executeTimeMilliseconds then lowest else item.executeTimeMilliseconds) bound
    (lowest = bound ∨ ∃ item ∈ queue, item.executeTimeMilliseconds = lowest) ∧ lowest ≤ bound ∧
      ∀ item ∈ queue, lowest ≤ item.executeTimeMilliseconds := by
  induction queue generalizing bound with
  | nil => exact ⟨Or.inl rfl, UInt64.le_refl _, fun item hitem => by cases hitem⟩
  | cons first queue ih =>
    rw [List.foldl_cons]
    obtain ⟨hone, hbound, hall⟩ := ih (if bound < first.executeTimeMilliseconds then bound else first.executeTimeMilliseconds)
    by_cases hlt : bound < first.executeTimeMilliseconds
    · rw [if_pos hlt] at hone hbound hall ⊢
      refine ⟨?_, hbound, List.forall_mem_cons.2 ⟨UInt64.le_of_lt (UInt64.lt_of_le_of_lt hbound hlt), hall⟩⟩
      exact hone.imp id fun ⟨item, hitem, htime⟩ => ⟨item, List.mem_cons_of_mem _ hitem, htime⟩
    · rw [if_neg hlt] at hone hbound hall ⊢
      refine ⟨Or.inr ?_, UInt64.le_trans hbound (UInt64.not_lt.1 hlt), List.forall_mem_cons.2 ⟨hbound, hall⟩⟩
      rcases hone with hfirst | ⟨item, hitem, htime⟩
      · exact ⟨first, List.mem_cons_self, hfirst.symm⟩
      · exact ⟨item, List.mem_cons_of_mem _ hitem, htime⟩

theorem lowest_first (h : queue ≠ []) : IsFirst queue (lowestExecuteTime queue) := by
  obtain ⟨hone, -, hall⟩ := lowest_spec queue UINT64_MAX
  refine ⟨?_, hall⟩
  rcases hone with hmax | hitem
  · obtain ⟨item, hitem⟩ := List.exists_mem_of_ne_nil _ h
    refine ⟨item, hitem, UInt64.le_antisymm ?_ (hall item hitem)⟩
    -- there is no greater time
    rw [lowestExecuteTime, hmax]
    exact UInt64.le_iff_toNat_le.2 (Nat.le_of_lt_succ item.executeTimeMilliseconds.toNat_lt)
  · exact hitem

theorem IsFirst.unique {a b : UInt64} (ha : IsFirst queue a) (hb : IsFirst queue b) : a = b := by
  obtain ⟨⟨first, hfirst, rfl⟩, hall⟩ := ha
  obtain ⟨⟨other, hother, rfl⟩, hall'⟩ := hb
  exact UInt64.le_antisymm (hall other hother) (hall' first hfirst)

theorem lowest_le_iff (h : queue ≠ []) (time : UInt64) :
    lowestExecuteTime queue ≤ time ↔ ∃ item ∈ queue, item.executeTimeMilliseconds ≤ time := by
  obtain ⟨⟨item, hitem, htime⟩, hall⟩ := lowest_first h
  exact ⟨fun hle => ⟨item, hitem, htime ▸ hle⟩, fun ⟨other, hother, hle⟩ => UInt64.le_trans (hall other hother) hle⟩

/-! ## The deadline -/

/-- The seconds of a time fit in a `time_t`. -/
theorem toInt_thousands (time : UInt64) : (time / 1000).toInt64.toInt = ((time.toNat / 1000 : Nat) : Int) := by
  have hlt : (time / 1000).toNat = time.toNat / 1000 := UInt64.toNat_div time 1000
  have hmax : time.toNat < 2 ^ 64 := time.toNat_lt
  calc (time / 1000).toInt64.toInt = (time / 1000).toBitVec.toInt := rfl
    _ = ((time / 1000).toBitVec.toNat : Int) := BitVec.toInt_eq_toNat_of_lt (by rw [UInt64.toNat_toBitVec, hlt]; omega)
    _ = ((time.toNat / 1000 : Nat) : Int) := by rw [UInt64.toNat_toBitVec, hlt]

theorem deadline_nsec (time : UInt64) (tv : Timeval) :
    (deadline time tv).tv_nsec = (tv.tv_usec + time.toNat % 1000) * 1000 := by
  show (tv.tv_usec + (time % 1000).toNat) * 1000 = _
  rw [UInt64.toNat_mod]
  rfl

theorem deadline_sec (time : UInt64) (tv : Timeval) :
    (deadline time tv).tv_sec.toInt = (tv.tv_sec.toInt + (time.toNat / 1000 : Nat)).bmod (2 ^ 64) := by
  show (tv.tv_sec + (time / 1000).toInt64).toInt = _
  rw [Int64.toInt_add, toInt_thousands]

theorem deadline_valid_iff (time : UInt64) (tv : Timeval) :
    (deadline time tv).valid = true ↔ tv.tv_usec + time.toNat % 1000 < 10 ^ 6 := by
  rw [Timespec.valid, decide_eq_true_iff, deadline_nsec]
  omega

/-- The deadline is the time exactly at one microsecond of the first second of 1970. -/
theorem deadline_exact_iff (time : UInt64) (tv : Timeval) :
    (deadline time tv).nanoseconds = time.toNat * 10 ^ 6 ↔ tv.tv_sec = 0 ∧ tv.tv_usec = 999 * (time.toNat % 1000) := by
  have hnow := tv.tv_usec_lt
  have hmax : time.toNat < 2 ^ 64 := time.toNat_lt
  have hlow := Int64.le_toInt tv.tv_sec
  have hhigh := Int64.toInt_lt tv.tv_sec
  rw [Timespec.nanoseconds, deadline_nsec, deadline_sec, ← Int64.toInt_inj, Int64.toInt_zero]
  by_cases hwrap : tv.tv_sec.toInt + (time.toNat / 1000 : Nat) < 2 ^ 63
  · -- the seconds are added
    rw [Int.bmod_eq_of_le (by omega) (by omega)]
    omega
  · -- they wrap to before 1970
    have hneg : (tv.tv_sec.toInt + (time.toNat / 1000 : Nat)).bmod (2 ^ 64) = tv.tv_sec.toInt + (time.toNat / 1000 : Nat) - 2 ^ 64 := by
      rw [← Int.sub_bmod_right, Int.bmod_eq_of_le (by omega) (by omega)]
      rfl
    rw [hneg]
    omega

/-! ## The round -/

theorem waitRound_returns_iff (h : queue ≠ []) :
    waitRound queue waitingToDestroy tv = .returns ↔
      waitingToDestroy = true ∨ ∃ item ∈ queue, item.executeTimeMilliseconds ≤ tv.milliseconds := by
  rw [← lowest_le_iff h, ← decide_eq_true_iff (p := _ ≤ tv.milliseconds), ← Bool.or_eq_true]
  unfold waitRound
  by_cases hnow : (waitingToDestroy || decide (lowestExecuteTime queue ≤ tv.milliseconds)) = true
  · simp [hnow]
  · simp only [hnow, Bool.false_eq_true, if_false, iff_false]
    split
    · nofun
    · split <;> nofun

/-- A round that does not return. -/
theorem waitRound_waiting (h : waitRound queue waitingToDestroy tv ≠ .returns) :
    waitRound queue waitingToDestroy tv =
      if lowestExecuteTime queue = UINT64_MAX then .waits
      else if (deadline (lowestExecuteTime queue) tv).valid then .waitsUntil (deadline (lowestExecuteTime queue) tv)
      else .aborts := by
  unfold waitRound at h ⊢
  by_cases hnow : (waitingToDestroy || decide (lowestExecuteTime queue ≤ tv.milliseconds)) = true
  · exact absurd (if_pos hnow) h
  · exact if_neg hnow

/-- The process ends where the microseconds of the clock and the rest of the first item's time
    make a second. -/
theorem waitRound_aborts_iff :
    waitRound queue waitingToDestroy tv = .aborts ↔
      waitRound queue waitingToDestroy tv ≠ .returns ∧ lowestExecuteTime queue ≠ UINT64_MAX ∧
        10 ^ 6 ≤ tv.tv_usec + (lowestExecuteTime queue).toNat % 1000 := by
  by_cases hreturns : waitRound queue waitingToDestroy tv = .returns
  · simp [hreturns]
  rw [waitRound_waiting hreturns, ← Nat.not_lt, ← deadline_valid_iff]
  split
  case isTrue hmax => simp [hmax]
  case isFalse hmax =>
    split
    case isTrue hvalid => simp [hvalid]
    case isFalse hvalid => simp [hmax, hvalid]

/-- A round waits until the first item is due where it need not wait, or at one microsecond of
    the first second of 1970. -/
theorem waitsForFirst_iff (h : queue ≠ []) :
    WaitsForFirst queue waitingToDestroy tv ↔ DeadlineFits queue waitingToDestroy tv := by
  rw [WaitsForFirst, DeadlineFits, ← or_assoc, ← waitRound_returns_iff h]
  by_cases hreturns : waitRound queue waitingToDestroy tv = .returns
  · simp [hreturns]
  simp only [hreturns, false_or]
  have hfirst := lowest_first h
  constructor
  · rintro ⟨ts, time, hwaits, -, htime, hexact⟩
    obtain rfl := htime.unique hfirst
    rw [waitRound_waiting hreturns] at hwaits
    split at hwaits
    case isTrue => cases hwaits
    case isFalse hmax =>
      split at hwaits
      case isFalse => cases hwaits
      case isTrue =>
        cases hwaits
        obtain ⟨hsec, husec⟩ := (deadline_exact_iff _ _).1 hexact
        exact ⟨hsec, _, hfirst, hmax, husec⟩
  · rintro ⟨hsec, time, htime, hmax, husec⟩
    obtain rfl := htime.unique hfirst
    -- the rest and the microseconds make less than a second
    have hvalid := (deadline_valid_iff (lowestExecuteTime queue) tv).2 (by omega)
    refine ⟨deadline (lowestExecuteTime queue) tv, _, ?_, of_decide_eq_true hvalid, hfirst,
      (deadline_exact_iff _ _).2 ⟨hsec, husec⟩⟩
    rw [waitRound_waiting hreturns, if_neg hmax, if_pos hvalid]

/-- In the first second of 1970, an item of two seconds later. -/
theorem waitsForFirst_epoch :
    ([⟨(), (), 2001⟩] : List (WorkQueueItem Unit Unit)) ≠ [] ∧
      WaitsForFirst ([⟨(), (), 2001⟩] : List (WorkQueueItem Unit Unit)) false ⟨0, 999, by decide⟩ :=
  ⟨by decide, (waitsForFirst_iff (by decide)).2 (Or.inr (Or.inr
    ⟨rfl, 2001, ⟨⟨_, List.mem_singleton_self _, rfl⟩, by decide⟩, by decide, rfl⟩))⟩

/-- An item is due in a second, in 2023: the deadline is in 2077. -/
theorem not_waitsForFirst :
    ¬ ∀ (queue : List (WorkQueueItem Unit Unit)) waitingToDestroy tv, queue ≠ [] → WaitsForFirst queue waitingToDestroy tv := by
  intro h
  have hround : waitRound ([⟨(), (), 1700000001000⟩] : List (WorkQueueItem Unit Unit)) false ⟨1700000000, 0, by decide⟩ =
      .waitsUntil ⟨3400000001, 0⟩ := rfl
  rcases h [⟨(), (), 1700000001000⟩] false ⟨1700000000, 0, by decide⟩ (by decide) with hreturns | ⟨ts, time, hwaits, -, htime, hexact⟩
  · rw [hround] at hreturns
    cases hreturns
  · rw [hround] at hwaits
    cases hwaits
    obtain ⟨⟨item, hitem, rfl⟩, -⟩ := htime
    rw [List.mem_singleton.1 hitem] at hexact
    revert hexact
    decide

/-- A millisecond more, in the last microsecond of a second: the process ends. -/
example : waitRound ([⟨(), (), 1700000001001⟩] : List (WorkQueueItem Unit Unit)) false ⟨1700000000, 999999, by decide⟩ = .aborts := rfl

end BitcoinSpoon
