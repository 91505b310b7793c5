/-
  BitcoinSpoon.Tracking.Ownership — who frees a block (`code/Data.c`).

  A block is tracked by a scope, which frees it when it is popped, or it is loose, and the
  caller frees it. Between the two the callers move it: `DataTrack`, `DataUntrack`,
  `DataTranscend`, which hands it to the scope around this one, and `DTPop`, which takes a
  result out of a scope that ends. `Respects` is what they owe to the blocks that are not
  theirs: they touch no track stack and nothing that a scope further out tracks, and they
  resize nothing to nothing.

  The ledger says who owns what and nothing of where a track stack's array is. `Owned` is
  the memory under a ledger.
-/

import BitcoinSpoon.Loop.Rules
import BitcoinSpoon.Tracking.Allocations
import Mathlib.Data.List.Nodup

namespace BitcoinSpoon.Allocations

open Loop

variable (alloc : Allocator)

/-! ## The operations -/

/-- The loop of `DatasRemoveTake`: what is behind a match moves up, the array keeps its last
    entry, and the next index is looked at. -/
def removeTakeLoop (bytes : Nat) (datas : List Nat) : List Nat × Nat :=
  forRange datas.length (fun i (ptr, removedCount) =>
    if ptr[i]? = some bytes then (ptr.eraseIdx i ++ ptr.getLast?.toList, removedCount + 1) else (ptr, removedCount)) (datas, 0)

def datasRemoveTake (bytes : Nat) (datas : List Nat) : Option (List Nat) :=
  let (ptr, removedCount) := removeTakeLoop bytes datas
  if 1 < removedCount then none else some (ptr.take (datas.length - removedCount))

/-- `DataUntrack`. -/
def dataUntrackAny (bytes : Nat) (m : Memory) : Option Memory :=
  match m.levels with
  | [] => some m
  | current :: levels =>
    (datasRemoveTake bytes current.datas).map fun datas => { m with levels := { current with datas := datas } :: levels }

def dataNewUntracked (length : Nat) (m : Memory) : Block × Memory :=
  let (bytes, m) := m.malloc alloc
  (⟨bytes, length⟩, m.count 1)

/-- `DatasAddRefFlexible` looks for the moved array of the scope around among what this one
    tracks. NULL is found there after a block was resized to nothing: then `DataReplaceTrack`
    adds to the track stack and aborts, as it looks for what it added in the old one. -/
def dataTranscend (bytes : Nat) (m : Memory) : Option Memory :=
  if bytes = 0 then some m
  else do
    let m ← dataUntrackAny bytes m
    match m.levels with
    | current :: outer :: levels =>
      let (added, m) ← datasAddRefFlexible alloc outer bytes m
      if added.ptr ≠ outer.ptr ∧ outer.ptr ∈ current.datas then
        if outer.ptr = 0 then none
        else
          let m := dataReplaceTrack outer.ptr added.ptr m
          some { m with levels := m.levels.set 1 added }
      else some { m with levels := current :: added :: levels }
    | _ => some m

def dtPop (bytes : Nat) (m : Memory) : Option Memory := do
  let m ← dataUntrackAny bytes m
  let m ← dataTrackPop alloc m
  dataTrack alloc bytes m

inductive Request where
  | basic (operation : Operation)
  | dataNewUntracked (length : Nat)
  | dataTrack (bytes : Nat)
  | dataUntrack (bytes : Nat)
  | dataTranscend (bytes : Nat)
  | dtPop (bytes : Nat)

def Memory.request (m : Memory) : Request → Option Memory
  | .basic operation => m.step alloc operation
  | .dataNewUntracked length => some (Allocations.dataNewUntracked alloc length m).2
  | .dataTrack bytes => Allocations.dataTrack alloc bytes m
  | .dataUntrack bytes => dataUntrackAny bytes m
  | .dataTranscend bytes => Allocations.dataTranscend alloc bytes m
  | .dtPop bytes => Allocations.dtPop alloc bytes m

/-! ## Owners -/

/-- The array of the track stacks and their own. -/
def Memory.arrays (m : Memory) : List Nat := m.trackStacks :: m.levels.map TrackStack.ptr

def Memory.scopes (m : Memory) : List (List Nat) := m.levels.map TrackStack.datas

/-- What a caller may hand over: a block that is not an array and that no scope further out
    tracks. -/
structure Mine (m : Memory) (bytes : Nat) : Prop where
  allocated : bytes ∈ m.allocated
  notArray : bytes ∉ m.arrays
  notOutside : bytes ∉ m.scopes.tail.flatten

/-- Resizes a block of its own, and not to nothing. -/
structure MayResize (m : Memory) (data : Block) (length : Nat) : Prop where
  mine : data.bytes ≠ 0 → Mine m data.bytes
  notEmptied : data.bytes ≠ 0 → length = 0 → data.length = 0

def Respects (m : Memory) : Request → Prop
  | .basic (.dataResize data length) => MayResize m data length
  | .basic (.dataAppend first second) =>
    MayResize m first (first.length + second.length) ∧ first.length + second.length < 2 ^ 32 ∧
      (second.length ≠ 0 → second.bytes ∈ m.allocated ∧ second.bytes ∉ m.arrays ∧ second.bytes ≠ first.bytes)
  | .basic (.dataDelete data start length) =>
    data.bytes ≠ 0 → start + length ≤ data.length ∧ MayResize m data (data.length - length)
  | .basic (.dataFree data) => data.bytes ≠ 0 → Mine m data.bytes
  | .basic .dataTrackPop => m.levels ≠ []
  | .dataTrack bytes => bytes ≠ 0 → Mine m bytes ∧ bytes ∉ m.scopes.flatten
  | .dataTranscend bytes => bytes ≠ 0 → Mine m bytes
  | .dtPop bytes => m.levels ≠ [] ∧ (bytes ≠ 0 → Mine m bytes)
  | _ => True

/-- No block is allocated twice, and NULL is none. -/
structure Apart (m : Memory) : Prop where
  once : ∀ b, m.allocated.count b ≤ 1
  notNull : 0 ∉ m.allocated

/-! ## The ledger -/

/-- Who owns what: the scopes, the current one first, and the callers. -/
structure Ledger where
  scopes : List (List Nat)
  loose : List Nat

def Ledger.create (l : Ledger) (bytes : Nat) : Ledger :=
  match l.scopes with
  | [] => ⟨[], bytes :: l.loose⟩
  | current :: scopes => ⟨(current ++ [bytes]) :: scopes, l.loose⟩

def Ledger.track (l : Ledger) (bytes : Nat) : Ledger :=
  match l.scopes with
  | [] => l
  | current :: scopes => if bytes = 0 then l else ⟨(current ++ [bytes]) :: scopes, l.loose.erase bytes⟩

def Ledger.untrack (l : Ledger) (bytes : Nat) : Ledger :=
  match l.scopes with
  | [] => l
  | current :: scopes => if bytes ∈ current then ⟨current.erase bytes :: scopes, bytes :: l.loose⟩ else l

def Ledger.transcend (l : Ledger) (bytes : Nat) : Ledger :=
  match (l.untrack bytes).scopes with
  | current :: outer :: scopes =>
    if bytes = 0 then l else ⟨current :: (outer ++ [bytes]) :: scopes, (l.untrack bytes).loose.erase bytes⟩
  | _ => l.untrack bytes

/-- `DatasReplaceData`. -/
def replaceData (old bytes : Nat) (datas : List Nat) : List Nat := datas.map fun data => if data = old then bytes else data

/-- The block is elsewhere. -/
def Ledger.move (l : Ledger) (old bytes : Nat) : Ledger :=
  match l.scopes with
  | [] => ⟨[], replaceData old bytes l.loose⟩
  | current :: scopes => ⟨replaceData old bytes current :: scopes, replaceData old bytes l.loose⟩

def Ledger.resize (l : Ledger) (data : Block) (length bytes : Nat) : Ledger :=
  if data.length = length ∨ length = 0 then l
  else if data.bytes = 0 then l.create bytes
  else l.move data.bytes bytes

def Ledger.free (l : Ledger) (bytes : Nat) : Ledger := ⟨(l.untrack bytes).scopes, (l.untrack bytes).loose.erase bytes⟩

def Ledger.push (l : Ledger) : Ledger := ⟨[] :: l.scopes, l.loose⟩

def Ledger.pop (l : Ledger) : Ledger := ⟨l.scopes.tail, l.loose⟩

def Ledger.dtPop (l : Ledger) (bytes : Nat) : Ledger := (l.untrack bytes).pop.track bytes

/-- `bytes` is where the result is. -/
def Ledger.step (l : Ledger) (bytes : Nat) : Request → Ledger
  | .basic (.dataNew _) => l.create bytes
  | .basic (.dataResize data length) => l.resize data length bytes
  | .basic (.dataAppend first second) => l.resize first (first.length + second.length) bytes
  | .basic (.dataDelete data _ length) => if data.bytes = 0 then l else l.resize data (data.length - length) bytes
  | .basic .dataTrackPush => l.push
  | .basic .dataTrackPop => l.pop
  | .basic (.dataFree data) => l.free data.bytes
  | .dataNewUntracked _ => ⟨l.scopes, bytes :: l.loose⟩
  | .dataTrack bytes => l.track bytes
  | .dataUntrack bytes => l.untrack bytes
  | .dataTranscend bytes => l.transcend bytes
  | .dtPop bytes => l.dtPop bytes

/-- The memory is as the ledger says: what is allocated is the arrays, what the scopes track
    and what is loose, each once. -/
structure Owned (m : Memory) (l : Ledger) : Prop where
  apart : Apart m
  scopes : m.scopes = l.scopes
  blocks : ∀ b, b ≠ 0 → m.allocated.count b = m.arrays.count b + l.scopes.flatten.count b + l.loose.count b
  trackedNotNull : 0 ∉ l.scopes.flatten
  looseNotNull : 0 ∉ l.loose
  top : m.trackStacks = 0 ↔ m.levels = []
  bare : ∀ datas ∈ m.levels, datas.ptr = 0 → datas.datas = []

variable {m next : Memory} {l : Ledger} {bytes old length : Nat} {data block : Block} {datas : TrackStack}
  {levels : List TrackStack} {gone come : List Nat}

/-! ## What is allocated -/

/-- Of what is allocated `gone` goes and `come` comes. NULL does not count. -/
structure Moves (m next : Memory) (gone come : List Nat) : Prop where
  apart : Apart next
  counts : ∀ b, b ≠ 0 → next.allocated.count b + gone.count b = m.allocated.count b + come.count b
  trackStacks : next.trackStacks = m.trackStacks
  levels : next.levels = m.levels

theorem Apart.refl_moves (h : Apart m) : Moves m m [] [] := ⟨h, fun _ _ => rfl, rfl, rfl⟩

theorem Moves.count (h : Moves m next gone come) (change : Int) : Moves m (next.count change) gone come :=
  ⟨⟨h.apart.once, h.apart.notNull⟩, h.counts, h.trackStacks, h.levels⟩

theorem Moves.trans {last : Memory} {gone' come' : List Nat} (h : Moves m next gone come) (h' : Moves next last gone' come') :
    Moves m last (gone ++ gone') (come ++ come') := by
  refine ⟨h'.apart, fun b hb => ?_, h'.trackStacks.trans h.trackStacks, h'.levels.trans h.levels⟩
  have hfirst := h.counts b hb
  have hsecond := h'.counts b hb
  rw [List.count_append, List.count_append]
  omega

theorem Moves.of_null (h : Moves m next [0] come) : Moves m next [] come := by
  refine ⟨h.apart, fun b hb => ?_, h.trackStacks, h.levels⟩
  have hcounts := h.counts b hb
  rwa [List.count_cons_of_ne (Ne.symm hb)] at hcounts

theorem Moves.to_null (h : Moves m next [] come) : Moves m next [0] come := by
  refine ⟨h.apart, fun b hb => ?_, h.trackStacks, h.levels⟩
  rw [List.count_cons_of_ne (Ne.symm hb)]
  exact h.counts b hb

theorem Apart.free (h : Apart m) (hfree : bytes ≠ 0 → bytes ∈ m.allocated) :
    ∃ next, m.free bytes = some next ∧ Moves m next [bytes] [] := by
  by_cases hnull : bytes = 0
  · subst hnull
    exact ⟨m, if_pos rfl, h.refl_moves.to_null⟩
  have hmem := hfree hnull
  refine ⟨{ m with allocated := m.allocated.erase bytes }, ?_, ⟨?_, ?_⟩, ?_, rfl, rfl⟩
  · rw [Memory.free, if_neg hnull, if_pos hmem]
  · exact fun b => (List.erase_sublist.count_le b).trans (h.once b)
  · exact fun hzero => h.notNull (List.mem_of_mem_erase hzero)
  · intro b hb
    have hpos := List.count_pos_iff.2 hmem
    by_cases heq : bytes = b
    · subst heq
      rw [List.count_erase_self, List.count_singleton_self, List.count_nil]
      omega
    · rw [List.count_erase_of_ne (Ne.symm heq), List.count_cons_of_ne heq]

theorem Apart.malloc (h : Apart m) : Moves m (m.malloc alloc).2 [] [(m.malloc alloc).1] ∧ (m.malloc alloc).1 ≠ 0 := by
  have hfresh : (m.malloc alloc).1 ∉ m.allocated := alloc.address_fresh _ _
  have hne : (m.malloc alloc).1 ≠ 0 := alloc.address_ne_zero _ _
  refine ⟨⟨⟨fun b => ?_, fun hzero => ?_⟩, fun b hb => ?_, rfl, rfl⟩, hne⟩
  · show ((m.malloc alloc).1 :: m.allocated).count b ≤ 1
    have honce := h.once b
    by_cases hb : (m.malloc alloc).1 = b
    · rw [← hb, List.count_cons_self, List.count_eq_zero.2 hfresh]
    · rwa [List.count_cons_of_ne hb]
  · rcases List.mem_cons.1 hzero with heq | hmem
    · exact hne heq.symm
    · exact h.notNull hmem
  · show ((m.malloc alloc).1 :: m.allocated).count b + _ = _
    rw [List.count_cons, List.count_cons, List.count_nil]
    omega

theorem Apart.reallocf (h : Apart m) (hfree : bytes ≠ 0 → bytes ∈ m.allocated) :
    ∃ moved next, m.reallocf alloc bytes = some (moved, next) ∧ moved ≠ 0 ∧ Moves m next [bytes] [moved] := by
  by_cases hnull : bytes = 0
  · subst hnull
    obtain ⟨hmoved, hne⟩ := h.malloc alloc
    exact ⟨_, _, if_pos rfl, hne, hmoved.to_null⟩
  have hmem := hfree hnull
  obtain ⟨freed, hrun, hfreed⟩ := h.free hfree
  rw [Memory.free, if_neg hnull, if_pos hmem] at hrun
  obtain rfl := Option.some.inj hrun
  obtain ⟨hmoved, hne⟩ := hfreed.apart.malloc alloc
  refine ⟨_, _, by rw [Memory.reallocf, if_neg hnull, if_pos hmem], hne, hmoved.apart, fun b hb => ?_, rfl, rfl⟩
  have hback := hfreed.counts b hb
  have hthere := hmoved.counts b hb
  rw [List.count_nil] at hback hthere
  omega

/-- `reallocf` of what is resized, unless to nothing. -/
theorem Apart.resizeBytes (h : Apart m) (hfree : data.bytes ≠ 0 → data.bytes ∈ m.allocated) (hlength : data.length ≠ length)
    (hsome : length ≠ 0) :
    ∃ moved next, Allocations.resizeBytes alloc data length m = some (⟨moved, length⟩, next) ∧ moved ≠ 0 ∧
      Moves m next [data.bytes] [moved] := by
  obtain ⟨moved, next, hrun, hne, hmoves⟩ := h.reallocf alloc hfree
  refine ⟨moved, if data.bytes = 0 then next.count 1 else next, ?_, hne, ?_⟩
  · rw [Allocations.resizeBytes, if_neg hlength, if_neg hsome, hrun]
    rfl
  · split
    · exact hmoves.count 1
    · exact hmoves

/-- One more in a track stack moves its array. -/
theorem Apart.datasAddRefFlexible (h : Apart m) (hfree : datas.ptr ≠ 0 → datas.ptr ∈ m.allocated) (hnew : bytes ∉ datas.datas) :
    ∃ ptr next, Allocations.datasAddRefFlexible alloc datas bytes m = some (⟨ptr, datas.datas ++ [bytes]⟩, next) ∧ ptr ≠ 0 ∧
      Moves m next [datas.ptr] [ptr] := by
  have hlength : datas.memory.length ≠ (datas.datas.length + 1) * 16 := by
    show datas.datas.length * 16 ≠ _
    omega
  obtain ⟨ptr, next, hrun, hne, hmoves⟩ := @Apart.resizeBytes alloc m _ datas.memory h hfree hlength (by omega)
  exact ⟨ptr, next, by rw [Allocations.datasAddRefFlexible, if_neg hnew, hrun]; rfl, hne, hmoves⟩

/-! ## `DatasRemoveTake` -/

/-- What is there once is taken out. -/
theorem removeTakeLoop_once {pre post : List Nat} (hpre : bytes ∉ pre) (hpost : bytes ∉ post) :
    ∃ last, removeTakeLoop bytes (pre ++ bytes :: post) = (pre ++ post ++ [last], 1) := by
  obtain ⟨last, hlast⟩ : ∃ last, (bytes :: post).getLast? = some last := ⟨_, List.getLast?_cons⟩
  have harray : (pre ++ bytes :: post).getLast? = some last := by rw [List.getLast?_append_cons, hlast]
  have hend : post = [] ∨ last ∈ post := by
    cases post with
    | nil => exact Or.inl rfl
    | cons first post =>
      rw [List.getLast?_cons_cons] at hlast
      exact Or.inr (List.mem_of_getLast? hlast)
  refine ⟨last, ?_⟩
  let P : Nat → List Nat × Nat → Prop := fun i s =>
    s = if i ≤ pre.length then (pre ++ bytes :: post, 0) else (pre ++ post ++ [last], 1)
  have hrun : P (pre ++ bytes :: post).length (removeTakeLoop bytes (pre ++ bytes :: post)) := by
    refine forRange_rule P (if_pos (Nat.zero_le _)).symm fun i hi s hs => ?_
    rw [List.length_append, List.length_cons] at hi
    rcases Nat.lt_trichotomy i pre.length with hlt | rfl | hgt
    · obtain rfl : s = _ := hs.trans (if_pos (Nat.le_of_lt hlt))
      have hother : (pre ++ bytes :: post)[i]? ≠ some bytes := by
        rw [List.getElem?_append_left hlt]
        exact fun h => hpre (List.mem_of_getElem? h)
      exact (if_neg hother).trans (if_pos (Nat.succ_le_of_lt hlt)).symm
    · obtain rfl : s = _ := hs.trans (if_pos (Nat.le_refl _))
      have hmatch : (pre ++ bytes :: post)[pre.length]? = some bytes := by simp
      refine (if_pos hmatch).trans (Eq.trans ?_ (if_neg (Nat.not_succ_le_self _)).symm)
      rw [harray, List.eraseIdx_append_of_length_le (Nat.le_refl _), Nat.sub_self, List.eraseIdx_cons_zero]
      rfl
    · obtain rfl : s = _ := hs.trans (if_neg (Nat.not_le_of_lt hgt))
      -- the entry that is left at the end is not looked at if it is the match
      have hother : (pre ++ post ++ [last])[i]? ≠ some bytes := by
        rw [List.append_assoc, List.getElem?_append_right (Nat.le_of_lt hgt)]
        intro h
        rcases hend with rfl | hend
        · simp only [List.length_nil] at hi
          omega
        · rcases List.mem_append.1 (List.mem_of_getElem? h) with hmem | hmem
          · exact hpost hmem
          · exact hpost (List.mem_singleton.1 hmem ▸ hend)
      exact (if_neg hother).trans (if_neg (Nat.not_le_of_lt (Nat.lt_succ_of_lt hgt))).symm
  have hlong : ¬ (pre ++ bytes :: post).length ≤ pre.length := by simp
  exact hrun.trans (if_neg hlong)

theorem removeTakeLoop_none {datas : List Nat} (h : bytes ∉ datas) : removeTakeLoop bytes datas = (datas, 0) := by
  refine forRange_rule (fun _ s => s = (datas, 0)) rfl fun i _ s hs => ?_
  subst hs
  exact if_neg fun hmatch => h (List.mem_of_getElem? hmatch)

theorem datasRemoveTake_once {datas : List Nat} (h : datas.count bytes ≤ 1) :
    datasRemoveTake bytes datas = some (datas.erase bytes) := by
  unfold datasRemoveTake
  by_cases hmem : bytes ∈ datas
  · obtain ⟨pre, post, rfl⟩ := List.append_of_mem hmem
    have hpre : bytes ∉ pre := by
      rw [← List.count_eq_zero]
      simp only [List.count_append, List.count_cons_self] at h
      omega
    have hpost : bytes ∉ post := by
      rw [← List.count_eq_zero]
      simp only [List.count_append, List.count_cons_self] at h
      omega
    obtain ⟨last, hloop⟩ := removeTakeLoop_once hpre hpost
    have hlength : (pre ++ post).length = (pre ++ bytes :: post).length - 1 := by simp
    rw [hloop, List.erase_append_right _ hpre, List.erase_cons_head]
    exact congrArg some (List.take_left' hlength)
  · rw [removeTakeLoop_none hmem, List.erase_of_not_mem hmem]
    simp

/-! ## What the ledger says of the memory -/

variable {current : List Nat} {scopes : List (List Nat)}

theorem Owned.once (h : Owned m l) (hb : bytes ≠ 0) :
    m.arrays.count bytes + l.scopes.flatten.count bytes + l.loose.count bytes ≤ 1 := by
  rw [← h.blocks bytes hb]
  exact h.apart.once bytes

theorem Owned.array_allocated (h : Owned m l) (hmem : bytes ∈ m.arrays) (hb : bytes ≠ 0) : bytes ∈ m.allocated := by
  have hpos := List.count_pos_iff.2 hmem
  have hcount := h.blocks bytes hb
  exact List.count_pos_iff.1 (by omega)

theorem Owned.loose_allocated (h : Owned m l) (hmem : bytes ∈ l.loose) : bytes ∈ m.allocated := by
  have hpos := List.count_pos_iff.2 hmem
  have hcount := h.blocks bytes fun hzero => h.looseNotNull (hzero ▸ hmem)
  exact List.count_pos_iff.1 (by omega)

theorem Owned.tracked_allocated (h : Owned m l) (hmem : bytes ∈ l.scopes.flatten) : bytes ∈ m.allocated := by
  have hpos := List.count_pos_iff.2 hmem
  have hcount := h.blocks bytes fun hzero => h.trackedNotNull (hzero ▸ hmem)
  exact List.count_pos_iff.1 (by omega)

/-- A block is tracked once at most. -/
theorem Owned.tracked_once (h : Owned m l) (b : Nat) : l.scopes.flatten.count b ≤ 1 := by
  by_cases hb : b = 0
  · rw [hb, List.count_eq_zero.2 h.trackedNotNull]
    exact Nat.zero_le _
  · have honce := h.once hb
    omega

theorem Owned.loose_once (h : Owned m l) (b : Nat) : l.loose.count b ≤ 1 := by
  by_cases hb : b = 0
  · rw [hb, List.count_eq_zero.2 h.looseNotNull]
    exact Nat.zero_le _
  · have honce := h.once hb
    omega

/-- The current scope of the ledger is the first track stack. -/
theorem Owned.levels_cons (h : Owned m l) (hscopes : l.scopes = current :: scopes) :
    ∃ datas levels, m.levels = datas :: levels ∧ datas.datas = current ∧ levels.map TrackStack.datas = scopes := by
  have hmap := h.scopes.trans hscopes
  exact List.map_eq_cons_iff.1 hmap

theorem Owned.levels_nil (h : Owned m l) (hscopes : l.scopes = []) : m.levels = [] := List.map_eq_nil_iff.1 (h.scopes.trans hscopes)

/-- What is the caller's own is loose or tracked by the current scope. -/
theorem Owned.mine (h : Owned m l) (hmine : Mine m bytes) :
    bytes ≠ 0 ∧ (bytes ∈ l.loose ∨ ∃ current scopes, l.scopes = current :: scopes ∧ bytes ∈ current) := by
  have hb : bytes ≠ 0 := fun hzero => h.apart.notNull (hzero ▸ hmine.allocated)
  refine ⟨hb, ?_⟩
  have hcount := h.blocks bytes hb
  have hpos := List.count_pos_iff.2 hmine.allocated
  have harray := List.count_eq_zero.2 hmine.notArray
  have houtside := List.count_eq_zero.2 hmine.notOutside
  rw [h.scopes] at houtside
  by_cases hloose : bytes ∈ l.loose
  · exact Or.inl hloose
  have hnone := List.count_eq_zero.2 hloose
  right
  cases hscopes : l.scopes with
  | nil =>
    rw [hscopes, List.flatten_nil, List.count_nil] at hcount
    omega
  | cons current scopes =>
    rw [hscopes, List.flatten_cons, List.count_append] at hcount
    rw [hscopes, List.tail_cons] at houtside
    exact ⟨current, scopes, rfl, List.count_pos_iff.1 (by omega)⟩

end BitcoinSpoon.Allocations
