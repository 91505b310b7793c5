/-
  BitcoinSpoon.Tracking.Allocations — what `DataAllocatedCount` counts (`code/Data.c`).

  The memory is the list of the allocated blocks; what is written into them is left out. A
  track stack is a block too, with the addresses of what is tracked, and so is the array of
  the track stacks. An operation that frees or resizes what is not allocated, writes behind a
  block or aborts stops the run, so the runs of callers that keep to what they own are among
  those that go on.

  The counter goes up with every block and down with every `free` but one:
  `DataResizeFlexible` frees what it resizes to nothing and does not count it. So the counter
  is right throughout a run exactly if no step resizes a block that has bytes to none
  (`allocatedCount_iff`).
-/

import BitcoinSpoon.Loop.Runs
import Mathlib.Algebra.Order.BigOperators.Group.List
import Mathlib.Algebra.Order.Ring.Nat

namespace BitcoinSpoon.Allocations

open Loop

/-! ## Blocks -/

/-- `malloc` and `realloc`: the address they give at each call, which is not NULL and none of
    the blocks that are still in use. Memory does not run out. -/
structure Allocator where
  address : Nat → List Nat → Nat
  address_ne_zero : ∀ calls used, address calls used ≠ 0
  address_fresh : ∀ calls used, address calls used ∉ used

/-- The array and what is in it; `ptr` is 0 for NULL. -/
structure TrackStack where
  ptr : Nat
  datas : List Nat

/-- The current track stack is the first of `levels`. -/
structure Memory where
  allocated : List Nat
  allocatedCount : Int
  /-- `trackStacks.datas` -/
  trackStacks : Nat
  levels : List TrackStack
  calls : Nat

def Memory.start : Memory := ⟨[], 0, 0, [], 0⟩

/-- A `Data`. -/
structure Block where
  bytes : Nat
  length : Nat
  deriving DecidableEq

variable (alloc : Allocator)

def Memory.malloc (m : Memory) : Nat × Memory :=
  let bytes := alloc.address m.calls m.allocated
  (bytes, { m with allocated := bytes :: m.allocated, calls := m.calls + 1 })

/-- Nothing for NULL. -/
def Memory.free (m : Memory) (bytes : Nat) : Option Memory :=
  if bytes = 0 then some m
  else if bytes ∈ m.allocated then some { m with allocated := m.allocated.erase bytes }
  else none

/-- `malloc` for NULL. The block may stay where it is. -/
def Memory.reallocf (m : Memory) (bytes : Nat) : Option (Nat × Memory) :=
  if bytes = 0 then some (m.malloc alloc)
  else if bytes ∈ m.allocated then some ({ m with allocated := m.allocated.erase bytes }.malloc alloc)
  else none

def Memory.count (m : Memory) (change : Int) : Memory := { m with allocatedCount := m.allocatedCount + change }

/-- `DataResizeFlexible` without the tracking. -/
def resizeBytes (data : Block) (length : Nat) (m : Memory) : Option (Block × Memory) :=
  if data.length = length then some (data, m)
  else if length = 0 then (m.free data.bytes).map fun m => (⟨0, 0⟩, m)
  else
    (m.reallocf alloc data.bytes).map fun (bytes, m) => (⟨bytes, length⟩, if data.bytes = 0 then m.count 1 else m)

/-! ## Tracking -/

def TrackStack.memory (datas : TrackStack) : Block := ⟨datas.ptr, datas.datas.length * 16⟩

/-- `DatasAddRefFlexible` of a track stack, which is not tracked itself. -/
def datasAddRefFlexible (datas : TrackStack) (bytes : Nat) (m : Memory) : Option (TrackStack × Memory) :=
  if bytes ∈ datas.datas then none
  else
    (resizeBytes alloc datas.memory ((datas.datas.length + 1) * 16) m).map fun (block, m) =>
      (⟨block.bytes, datas.datas ++ [bytes]⟩, m)

def dataTrack (bytes : Nat) (m : Memory) : Option Memory :=
  if bytes = 0 then some m
  else
    match m.levels with
    | [] => some m
    | current :: levels =>
      if bytes ∈ current.datas then none
      else (datasAddRefFlexible alloc current bytes m).map fun (current, m) => { m with levels := current :: levels }

/-- `DataReplaceTrack` if it is tracked. -/
def dataReplaceTrack (old bytes : Nat) (m : Memory) : Memory :=
  match m.levels with
  | [] => m
  | current :: levels =>
    if old ∈ current.datas then
      { m with levels := { current with datas := current.datas.map fun data => if data = old then bytes else data } :: levels }
    else m

/-- `DatasRemoveTake` of what is there once. The array keeps its size. -/
def dataUntrack (bytes : Nat) (m : Memory) : Memory :=
  match m.levels with
  | [] => m
  | current :: levels => { m with levels := { current with datas := current.datas.erase bytes } :: levels }

def trackedCount (bytes : Nat) (m : Memory) : Nat :=
  match m.levels with
  | [] => 0
  | current :: _ => current.datas.count bytes

def dataFreeFlexible (bytes : Nat) (untrack : Bool) (m : Memory) : Option Memory :=
  if 1 < trackedCount bytes m then none
  else
    let m := if untrack then dataUntrack bytes m else m
    let m := if bytes ≠ 0 then m.count (-1) else m
    m.free bytes

/-- `DatasFreeFlexible` of a track stack with what is tracked in it. -/
def datasFreeFlexible (datas : TrackStack) (m : Memory) : Option Memory :=
  if datas.ptr = 0 then some m
  else do
    let m ← datas.datas.foldlM (fun m bytes => dataFreeFlexible bytes false m) m
    dataFreeFlexible datas.ptr true m

/-! ## The operations -/

def dataNew (length : Nat) (m : Memory) : Option (Block × Memory) :=
  let (bytes, m) := m.malloc alloc
  (dataTrack alloc bytes (m.count 1)).map fun m => (⟨bytes, length⟩, m)

def dataResize (data : Block) (length : Nat) (m : Memory) : Option (Block × Memory) := do
  let (block, m) ← resizeBytes alloc data length m
  if data.bytes = block.bytes then some (block, m)
  else if data.bytes = 0 then (dataTrack alloc block.bytes m).map fun m => (block, m)
  else some (block, dataReplaceTrack data.bytes block.bytes m)

/-- A length has 32 bits. `none` is also `memcpy` from or to what is not allocated. -/
def dataAppend (first second : Block) (m : Memory) : Option (Block × Memory) := do
  let (block, m) ← dataResize alloc first ((first.length + second.length) % 2 ^ 32) m
  if block.length < first.length + second.length then none
  else if second.length ≠ 0 ∧ second.bytes ∉ m.allocated then none
  else some (block, m)

def dataDelete (data : Block) (start length : Nat) (m : Memory) : Option (Block × Memory) :=
  if data.bytes = 0 then some (data, m)
  else if data.length < start + length then none
  else dataResize alloc data (data.length - length) m

def dataFree (data : Block) (m : Memory) : Option Memory := dataFreeFlexible data.bytes true m

def dataTrackPush (m : Memory) : Option Memory :=
  (m.reallocf alloc m.trackStacks).map fun (bytes, next) =>
    let next := if m.trackStacks = 0 then next.count 1 else next
    { next with trackStacks := bytes, levels := ⟨0, []⟩ :: next.levels }

def dataTrackPop (m : Memory) : Option Memory :=
  match m.levels with
  | [] => none
  | current :: levels => do
    let m ← datasFreeFlexible current m
    if m.trackStacks = 0 then none
    else if levels = [] then
      ((m.count (-1)).free m.trackStacks).map fun m => { m with trackStacks := 0, levels := [] }
    else (m.reallocf alloc m.trackStacks).map fun (bytes, m) => { m with trackStacks := bytes, levels := levels }

inductive Operation where
  | dataNew (length : Nat)
  | dataResize (data : Block) (length : Nat)
  | dataAppend (first second : Block)
  | dataDelete (data : Block) (start length : Nat)
  | dataTrackPush
  | dataTrackPop
  | dataFree (data : Block)

def Memory.step (m : Memory) : Operation → Option Memory
  | .dataNew length => (Allocations.dataNew alloc length m).map Prod.snd
  | .dataResize data length => (Allocations.dataResize alloc data length m).map Prod.snd
  | .dataAppend first second => (Allocations.dataAppend alloc first second m).map Prod.snd
  | .dataDelete data start length => (Allocations.dataDelete alloc data start length m).map Prod.snd
  | .dataTrackPush => Allocations.dataTrackPush alloc m
  | .dataTrackPop => Allocations.dataTrackPop alloc m
  | .dataFree data => Allocations.dataFree data m

/-- `AssertEqual(DataAllocatedCount() - startingCount, 0)` of the tests fails. -/
def Memory.reportsLeak (startingCount : Int) (m : Memory) : Bool := m.allocatedCount - startingCount != 0

/-- `DataAllocatedCount` is the number of the blocks, and the check of the tests finds what
    is left of them. -/
structure CountsBlocks (m : Memory) : Prop where
  exact : m.allocatedCount = m.allocated.length
  leaks : m.reportsLeak 0 ↔ m.allocated ≠ []

/-- A block that has bytes is resized to none. -/
def EmptiesBlock (m : Memory) : Operation → Prop
  | .dataResize data length => data.bytes ∈ m.allocated ∧ data.length ≠ 0 ∧ length = 0
  | .dataDelete data start length => data.bytes ∈ m.allocated ∧ data.length ≠ 0 ∧ start = 0 ∧ length = data.length
  | _ => False

/-! ## Accounts -/

/-- By how much the counter is above the number of the blocks. -/
def Memory.excess (m : Memory) : Int := m.allocatedCount - m.allocated.length

/-- From `m` on the excess has changed by `change`. NULL is never a block. -/
structure Accounts (m next : Memory) (change : Int) : Prop where
  excess : next.excess = m.excess + change
  notNull : 0 ∉ m.allocated → 0 ∉ next.allocated

variable {alloc} {m next last : Memory} {change change' : Int} {data first second block : Block} {datas : TrackStack}
  {bytes length start : Nat} {untrack : Bool}

theorem Accounts.refl (m : Memory) : Accounts m m 0 := ⟨(Int.add_zero _).symm, id⟩

theorem Accounts.trans (h : Accounts m next change) (h' : Accounts next last change') : Accounts m last (change + change') where
  excess := by rw [h'.excess, h.excess, Int.add_assoc]
  notNull := h'.notNull ∘ h.notNull

/-- The track stacks are not counted. -/
theorem Accounts.tracked (h : Accounts m next change) (trackStacks : Nat) (levels : List TrackStack) :
    Accounts m { next with trackStacks := trackStacks, levels := levels } change := ⟨h.excess, h.notNull⟩

theorem count_accounts (m : Memory) (change : Int) : Accounts m (m.count change) change where
  excess := by
    simp only [Memory.excess, Memory.count]
    omega
  notNull := id

theorem malloc_accounts (m : Memory) : Accounts m (m.malloc alloc).2 (-1) where
  excess := by
    simp only [Memory.excess, Memory.malloc, List.length_cons]
    omega
  notNull h := fun hmem => (List.mem_cons.1 hmem).elim (fun heq => alloc.address_ne_zero _ _ heq.symm) h

/-- NULL is not freed. -/
theorem free_accounts (h : m.free bytes = some next) : Accounts m next (if bytes = 0 then 0 else 1) := by
  unfold Memory.free at h
  by_cases hnull : bytes = 0
  · rw [if_pos hnull] at h ⊢
    cases h
    exact Accounts.refl m
  rw [if_neg hnull] at h ⊢
  split at h
  · rename_i hmem
    cases h
    refine ⟨?_, fun hzero hmem' => hzero (List.mem_of_mem_erase hmem')⟩
    have hpos := List.length_pos_of_mem hmem
    simp only [Memory.excess, List.length_erase_of_mem hmem]
    omega
  · cases h

theorem reallocf_accounts (h : m.reallocf alloc bytes = some (length, next)) : Accounts m next (if bytes = 0 then -1 else 0) := by
  unfold Memory.reallocf at h
  by_cases hnull : bytes = 0
  · rw [if_pos hnull] at h ⊢
    obtain rfl : (m.malloc alloc).2 = next := congrArg Prod.snd (Option.some.inj h)
    exact malloc_accounts m
  rw [if_neg hnull] at h ⊢
  split at h
  · rename_i hmem
    have hfree : Accounts m { m with allocated := m.allocated.erase bytes } 1 := by
      have hrun : m.free bytes = some { m with allocated := m.allocated.erase bytes } := by
        rw [Memory.free, if_neg hnull, if_pos hmem]
      simpa only [if_neg hnull] using free_accounts hrun
    obtain rfl : ({ m with allocated := m.allocated.erase bytes }.malloc alloc).2 = next := congrArg Prod.snd (Option.some.inj h)
    exact hfree.trans (malloc_accounts _)
  · cases h

/-- What is resized to nothing is freed and not counted. -/
theorem resizeBytes_accounts (h : resizeBytes alloc data length m = some (block, next)) :
    Accounts m next (if data.bytes ≠ 0 ∧ data.length ≠ length ∧ length = 0 then 1 else 0) := by
  unfold resizeBytes at h
  by_cases hsame : data.length = length
  · rw [if_pos hsame] at h
    cases h
    simpa [hsame] using Accounts.refl m
  rw [if_neg hsame] at h
  by_cases hnone : length = 0
  · subst hnone
    rw [if_pos rfl] at h
    obtain ⟨freed, hfree, heq⟩ := Option.map_eq_some_iff.1 h
    cases heq
    by_cases hnull : data.bytes = 0 <;> simpa [hnull, hsame] using free_accounts hfree
  · rw [if_neg hnone] at h
    obtain ⟨⟨moved, resized⟩, hrealloc, heq⟩ := Option.map_eq_some_iff.1 h
    cases heq
    have hmoved := reallocf_accounts hrealloc
    by_cases hnull : data.bytes = 0
    · simp only [hnull, if_true] at hmoved ⊢
      simpa using hmoved.trans (count_accounts _ 1)
    · simpa [hnull, hnone] using hmoved

theorem datasAddRefFlexible_accounts {result : TrackStack} (h : datasAddRefFlexible alloc datas bytes m = some (result, next)) :
    Accounts m next 0 := by
  unfold datasAddRefFlexible at h
  split at h
  · cases h
  · obtain ⟨⟨block, resized⟩, hresize, heq⟩ := Option.map_eq_some_iff.1 h
    cases heq
    simpa using resizeBytes_accounts hresize

theorem dataTrack_accounts (h : dataTrack alloc bytes m = some next) : Accounts m next 0 := by
  unfold dataTrack at h
  split at h
  · cases h
    exact Accounts.refl m
  split at h
  · cases h
    exact Accounts.refl m
  split at h
  · cases h
  · obtain ⟨⟨current, added⟩, hadd, heq⟩ := Option.map_eq_some_iff.1 h
    cases heq
    exact (datasAddRefFlexible_accounts hadd).tracked _ _

theorem dataReplaceTrack_accounts (old : Nat) : Accounts m (dataReplaceTrack old bytes m) 0 := by
  unfold dataReplaceTrack
  split
  · exact Accounts.refl m
  · split
    · exact (Accounts.refl m).tracked _ _
    · exact Accounts.refl m

theorem dataUntrack_accounts : Accounts m (dataUntrack bytes m) 0 := by
  unfold dataUntrack
  split
  · exact Accounts.refl m
  · exact (Accounts.refl m).tracked _ _

/-- What is freed is counted. -/
theorem dataFreeFlexible_accounts (h : dataFreeFlexible bytes untrack m = some next) : Accounts m next 0 := by
  unfold dataFreeFlexible at h
  split at h
  · cases h
  have huntracked : Accounts m (if untrack then dataUntrack bytes m else m) 0 := by
    cases untrack
    · exact Accounts.refl m
    · exact dataUntrack_accounts
  dsimp only at h
  generalize (if untrack then dataUntrack bytes m else m) = left at h huntracked
  have hfree : Accounts left next 0 := by
    by_cases hnull : bytes = 0
    · rw [if_neg (not_not.2 hnull)] at h
      simpa [hnull] using free_accounts h
    · rw [if_pos hnull] at h
      simpa [hnull] using (count_accounts left (-1)).trans (free_accounts h)
  exact huntracked.trans hfree

theorem datasFreeFlexible_accounts (h : datasFreeFlexible datas m = some next) : Accounts m next 0 := by
  unfold datasFreeFlexible at h
  split at h
  · cases h
    exact Accounts.refl m
  · obtain ⟨left, hleft, hmemory⟩ := Option.bind_eq_some_iff.1 h
    have hdatas : Accounts m left 0 := by
      refine @after_inv _ _ _ (Accounts m · 0) (fun middle bytes next hmiddle hfree => ?_) _ _ _ (Accounts.refl m) hleft
      exact hmiddle.trans (dataFreeFlexible_accounts hfree)
    exact hdatas.trans (dataFreeFlexible_accounts hmemory)

/-! ## The steps -/

theorem dataNew_accounts (h : dataNew alloc length m = some (block, next)) : Accounts m next 0 := by
  obtain ⟨tracked, htrack, heq⟩ := Option.map_eq_some_iff.1 h
  cases heq
  exact ((malloc_accounts m).trans (count_accounts _ 1)).trans (dataTrack_accounts htrack)

theorem dataResize_accounts (h : dataResize alloc data length m = some (block, next)) :
    Accounts m next (if data.bytes ≠ 0 ∧ data.length ≠ length ∧ length = 0 then 1 else 0) := by
  obtain ⟨⟨resized, middle⟩, hresize, h⟩ := Option.bind_eq_some_iff.1 h
  have hbytes := resizeBytes_accounts hresize
  have htracked : Accounts middle next 0 := by
    dsimp only at h
    split at h
    · cases h
      exact Accounts.refl _
    split at h
    · obtain ⟨tracked, htrack, heq⟩ := Option.map_eq_some_iff.1 h
      cases heq
      exact dataTrack_accounts htrack
    · cases h
      exact dataReplaceTrack_accounts _
  simpa only [Int.add_zero] using hbytes.trans htracked

theorem dataResize_length (h : dataResize alloc data length m = some (block, next)) : block.length = length := by
  obtain ⟨⟨resized, middle⟩, hresize, h⟩ := Option.bind_eq_some_iff.1 h
  have hlength : resized.length = length := by
    unfold resizeBytes at hresize
    split at hresize
    · rename_i hsame
      cases hresize
      exact hsame
    split at hresize
    · rename_i hnone
      obtain ⟨_, -, heq⟩ := Option.map_eq_some_iff.1 hresize
      cases heq
      exact hnone.symm
    · obtain ⟨_, -, heq⟩ := Option.map_eq_some_iff.1 hresize
      cases heq
      rfl
  dsimp only at h
  split at h
  · cases h
    exact hlength
  split at h
  · obtain ⟨_, -, heq⟩ := Option.map_eq_some_iff.1 h
    cases heq
    exact hlength
  · cases h
    exact hlength

/-- The result has room for both. -/
theorem dataAppend_accounts (h : dataAppend alloc first second m = some (block, next)) : Accounts m next 0 := by
  obtain ⟨⟨resized, middle⟩, hresize, h⟩ := Option.bind_eq_some_iff.1 h
  have hlength := dataResize_length hresize
  dsimp only at h
  split at h
  · cases h
  rename_i hroom
  split at h
  · cases h
  cases h
  have hbytes := dataResize_accounts hresize
  rwa [if_neg (by omega)] at hbytes

theorem dataDelete_accounts (h : dataDelete alloc data start length m = some (block, next)) :
    Accounts m next (if data.bytes ≠ 0 ∧ data.length ≠ 0 ∧ start = 0 ∧ length = data.length then 1 else 0) := by
  unfold dataDelete at h
  split at h
  · rename_i hnull
    cases h
    simpa [hnull] using Accounts.refl m
  split at h
  · cases h
  rename_i hinside
  have hempties : (data.bytes ≠ 0 ∧ data.length ≠ data.length - length ∧ data.length - length = 0) ↔
      data.bytes ≠ 0 ∧ data.length ≠ 0 ∧ start = 0 ∧ length = data.length := by
    omega
  simpa only [hempties] using dataResize_accounts h

theorem dataTrackPush_accounts (h : dataTrackPush alloc m = some next) : Accounts m next 0 := by
  obtain ⟨⟨bytes, moved⟩, hrealloc, rfl⟩ := Option.map_eq_some_iff.1 h
  have hmoved := reallocf_accounts hrealloc
  by_cases hfirst : m.trackStacks = 0
  · simp only [hfirst, if_true] at hmoved ⊢
    exact (hmoved.trans (count_accounts _ 1)).tracked _ _
  · simp only [hfirst, if_false] at hmoved ⊢
    exact hmoved.tracked _ _

theorem dataTrackPop_accounts (h : dataTrackPop alloc m = some next) : Accounts m next 0 := by
  unfold dataTrackPop at h
  split at h
  · cases h
  obtain ⟨freed, hfreed, h⟩ := Option.bind_eq_some_iff.1 h
  have hdatas := datasFreeFlexible_accounts hfreed
  split at h
  · cases h
  rename_i hnull
  split at h
  · obtain ⟨last, hfree, heq⟩ := Option.map_eq_some_iff.1 h
    cases heq
    have hlast := (count_accounts freed (-1)).trans (free_accounts hfree)
    rw [if_neg hnull] at hlast
    exact (hdatas.trans hlast).tracked _ _
  · obtain ⟨⟨bytes, moved⟩, hrealloc, heq⟩ := Option.map_eq_some_iff.1 h
    cases heq
    have hmoved := reallocf_accounts hrealloc
    rw [if_neg hnull] at hmoved
    exact (hdatas.trans hmoved).tracked _ _

/-! ## The runs -/

/-- Nothing stops a block from being emptied. -/
theorem dataResize_empties (hnull : data.bytes ≠ 0) (hmem : data.bytes ∈ m.allocated) (hbytes : data.length ≠ 0) :
    dataResize alloc data 0 m =
      some (⟨0, 0⟩, dataReplaceTrack data.bytes 0 { m with allocated := m.allocated.erase data.bytes }) := by
  have hfree : resizeBytes alloc data 0 m = some (⟨0, 0⟩, { m with allocated := m.allocated.erase data.bytes }) := by
    rw [resizeBytes, if_neg hbytes, if_pos rfl, Memory.free, if_neg hnull, if_pos hmem]
    rfl
  rw [dataResize, hfree]
  simp [hnull]

theorem dataResize_allocated (h : dataResize alloc data 0 m = some (block, next)) (hnull : data.bytes ≠ 0)
    (hbytes : data.length ≠ 0) : data.bytes ∈ m.allocated := by
  by_contra hmem
  have hstuck : resizeBytes alloc data 0 m = none := by
    rw [resizeBytes, if_neg hbytes, if_pos rfl, Memory.free, if_neg hnull, if_neg hmem]
    rfl
  rw [dataResize, hstuck] at h
  cases h

variable {operation : Operation}

theorem empties_step (hnull : 0 ∉ m.allocated) (h : EmptiesBlock m operation) : m.step alloc operation ≠ none := by
  cases operation with
  | dataResize data length =>
    obtain ⟨hmem, hbytes, rfl⟩ := h
    rw [Memory.step, dataResize_empties (fun heq => hnull (heq ▸ hmem)) hmem hbytes]
    nofun
  | dataDelete data start length =>
    obtain ⟨hmem, hbytes, rfl, rfl⟩ := h
    have hne : data.bytes ≠ 0 := fun heq => hnull (heq ▸ hmem)
    rw [Memory.step, dataDelete, if_neg hne, if_neg (by omega), Nat.sub_self, dataResize_empties hne hmem hbytes]
    nofun
  | _ => exact h.elim

open Classical in
/-- A step adds one to the excess where it empties a block. -/
theorem step_accounts (hnull : 0 ∉ m.allocated) (h : m.step alloc operation = some next) :
    Accounts m next (if EmptiesBlock m operation then 1 else 0) := by
  cases operation with
  | dataNew length =>
    obtain ⟨⟨block, tracked⟩, hrun, rfl⟩ := Option.map_eq_some_iff.1 h
    simpa [EmptiesBlock] using dataNew_accounts hrun
  | dataResize data length =>
    obtain ⟨⟨block, resized⟩, hrun, rfl⟩ := Option.map_eq_some_iff.1 h
    have hempties : EmptiesBlock m (.dataResize data length) ↔ data.bytes ≠ 0 ∧ data.length ≠ length ∧ length = 0 := by
      constructor
      · rintro ⟨hmem, hbytes, rfl⟩
        exact ⟨fun heq => hnull (heq ▸ hmem), hbytes, rfl⟩
      · rintro ⟨hne, hbytes, rfl⟩
        exact ⟨dataResize_allocated hrun hne hbytes, hbytes, rfl⟩
    simpa only [hempties] using dataResize_accounts hrun
  | dataAppend first second =>
    obtain ⟨⟨block, appended⟩, hrun, rfl⟩ := Option.map_eq_some_iff.1 h
    simpa [EmptiesBlock] using dataAppend_accounts hrun
  | dataDelete data start length =>
    obtain ⟨⟨block, deleted⟩, hrun, rfl⟩ := Option.map_eq_some_iff.1 h
    have hempties : EmptiesBlock m (.dataDelete data start length) ↔
        data.bytes ≠ 0 ∧ data.length ≠ 0 ∧ start = 0 ∧ length = data.length := by
      constructor
      · rintro ⟨hmem, hbytes, hstart, hlength⟩
        exact ⟨fun heq => hnull (heq ▸ hmem), hbytes, hstart, hlength⟩
      · rintro ⟨hne, hbytes, rfl, rfl⟩
        rw [dataDelete, if_neg hne, if_neg (by omega), Nat.sub_self] at hrun
        exact ⟨dataResize_allocated hrun hne hbytes, hbytes, rfl, rfl⟩
    simpa only [hempties] using dataDelete_accounts hrun
  | dataTrackPush => simpa [EmptiesBlock] using dataTrackPush_accounts h
  | dataTrackPop => simpa [EmptiesBlock] using dataTrackPop_accounts h
  | dataFree data => simpa [EmptiesBlock] using dataFreeFlexible_accounts h

theorem countsBlocks_iff : CountsBlocks m ↔ m.excess = 0 := by
  have hlength : m.allocated.length = 0 ↔ m.allocated = [] := List.length_eq_zero_iff
  constructor
  · intro h
    have hexact := h.exact
    simp only [Memory.excess]
    omega
  · intro h
    have hexact : m.allocatedCount = m.allocated.length := by
      simp only [Memory.excess] at h
      omega
    refine ⟨hexact, ?_⟩
    rw [Memory.reportsLeak, bne_iff_ne, hexact, ← not_iff_not, not_not, not_not, ← hlength]
    omega

/-- In every run from the beginning, the counter is the number of the blocks at every moment
    if and only if no step resizes a block that has bytes to none. -/
theorem allocatedCount_iff (alloc : Allocator) (operations : List Operation) :
    Throughout (Memory.step alloc) CountsBlocks Memory.start operations ↔
      Along (Memory.step alloc) (fun m operation => ¬EmptiesBlock m operation) Memory.start operations := by
  have hstart : CountsBlocks Memory.start := countsBlocks_iff.2 rfl
  have hnull : 0 ∉ Memory.start.allocated := List.not_mem_nil
  refine @throughout_iff_along _ _ _ CountsBlocks (fun m => 0 ∉ m.allocated) _
    (fun m operation next hnull hcounts hrun => ?_) (fun m operation hnull _ hstuck hempties => ?_) _ _ hnull hstart
  · have hstep := step_accounts hnull hrun
    have hexcess := hstep.excess
    rw [countsBlocks_iff.1 hcounts] at hexcess
    refine ⟨fun _ => hstep.notNull hnull, ?_⟩
    rw [countsBlocks_iff, hexcess]
    split
    · rename_i hempties
      exact iff_of_false (by omega) (not_not.2 hempties)
    · rename_i hkeeps
      exact iff_of_true rfl hkeeps
  · exact empties_step hnull hempties hstuck

/-- An address behind all that are in use. -/
def bump : Allocator where
  address _ used := used.sum + 1
  address_ne_zero _ _ := Nat.succ_ne_zero _
  address_fresh _ _ hmem := absurd (List.le_sum_of_mem hmem) (Nat.not_succ_le_self _)

/-- A block of one byte that is resized to none is freed, and the counter is still one. -/
theorem not_countsBlocks :
    ¬∀ (alloc : Allocator) (operations : List Operation),
      Throughout (Memory.step alloc) CountsBlocks Memory.start operations := by
  intro h
  have hrun := h bump [.dataNew 1, .dataResize ⟨1, 1⟩ 0] _ List.prefix_rfl ⟨[], 1, 0, [], 1⟩ rfl
  exact absurd hrun.exact (by decide)

end BitcoinSpoon.Allocations
