/-
  BitcoinSpoon.Tracking.Calls — runs of callers that keep to what they own (`code/Data.c`).

  - `respected_run`: such a run is never stopped. Nothing aborts, nothing is freed twice, and
    at every moment every block has exactly one owner.
  - `tracked_call`: a call that begins with `DTPush` and ends with `DTPop` leaves the blocks
    of all others as they were, and of its own only the result, which the caller's scope
    tracks.
  - `emptied_twice`: why nothing is to be resized to nothing. A scope in which that is done to
    two blocks cannot be ended: `DataTrackPop` finds NULL tracked twice and aborts.
-/

import BitcoinSpoon.Tracking.Ledger

namespace BitcoinSpoon.Allocations

open Loop

variable (alloc : Allocator) {m next : Memory} {l : Ledger} {bytes length : Nat} {data : Block} {datas : TrackStack}
  {levels : List TrackStack}

/-! ## Runs -/

theorem Owned.start : Owned Memory.start ⟨[], []⟩ := by
  refine ⟨⟨fun b => ?_, List.not_mem_nil⟩, rfl, fun b hb => ?_, List.not_mem_nil, List.not_mem_nil, ?_, ?_⟩
  · exact Nat.zero_le _
  · simp [Memory.start, Memory.arrays, Ne.symm hb]
  · exact iff_of_true rfl rfl
  · exact fun datas hmem => absurd hmem List.not_mem_nil

theorem Owned.run {requests : List Request} (h : Owned m l) (hrespects : Along (Memory.request alloc) Respects m requests) :
    ∀ before, before <+: requests → ∃ reached ledger, after (Memory.request alloc) m before = some reached ∧
      Owned reached ledger := by
  induction requests generalizing m l with
  | nil =>
    intro before hprefix
    rw [List.prefix_nil.1 hprefix]
    exact ⟨m, l, rfl, h⟩
  | cons request requests ih =>
    intro before hprefix
    cases before with
    | nil => exact ⟨m, l, rfl, h⟩
    | cons first before =>
      obtain ⟨rfl, hrest⟩ := List.cons_prefix_cons.1 hprefix
      obtain ⟨bytes, next, hrun, hnext⟩ := h.request alloc hrespects.1
      rw [after_cons hrun]
      exact ih hnext (hrespects.2 next hrun) before hrest

/-- Every block is allocated once and has one owner: it is an array, it is tracked once, in
    one scope, or it is loose. -/
structure OneOwner (m : Memory) : Prop where
  once : m.allocated.Nodup
  owners : ∃ loose, m.allocated.Perm (m.arrays.filter (· ≠ 0) ++ m.scopes.flatten ++ loose)

theorem Owned.oneOwner (h : Owned m l) : OneOwner m := by
  refine ⟨List.nodup_iff_count_le_one.2 h.apart.once, l.loose, List.perm_iff_count.2 fun b => ?_⟩
  rw [List.count_append, List.count_append, h.scopes]
  by_cases hb : b = 0
  · rw [hb, List.count_eq_zero.2 h.apart.notNull, List.count_eq_zero.2 h.trackedNotNull, List.count_eq_zero.2 h.looseNotNull]
    rw [List.count_eq_zero.2 (by simp)]
  · rw [List.count_filter (by simpa using hb)]
    exact h.blocks b hb

/-- The blocks without the arrays of the track stacks. -/
def Memory.blocks (m : Memory) : List Nat := m.allocated.filter (· ∉ m.arrays)

/-- The current scope tracks it. -/
def Own (m : Memory) (bytes : Nat) : Prop := ∃ current ∈ m.scopes.head?, bytes ∈ current

/-- What a call may do that was made at `depth`: it changes and gives away only what its own
    scopes track, it releases nothing, and it ends none of the scopes around it. -/
def Inside (depth : Nat) (m : Memory) : Request → Prop
  | .basic (.dataResize data _) | .basic (.dataAppend data _) | .basic (.dataDelete data _ _) | .basic (.dataFree data) =>
    data.bytes ≠ 0 → Own m data.bytes
  | .basic .dataTrackPop => depth + 1 < m.levels.length
  | .dataTranscend bytes | .dtPop bytes => depth + 1 < m.levels.length ∧ (bytes ≠ 0 → Own m bytes)
  | .dataNewUntracked _ | .dataUntrack _ => False
  | .dataTrack bytes => bytes = 0
  | _ => True

def Keeps (depth : Nat) (m : Memory) (request : Request) : Prop := Respects m request ∧ Inside depth m request

theorem Owned.blocks_count (h : Owned m l) (b : Nat) : m.blocks.count b = l.scopes.flatten.count b + l.loose.count b := by
  by_cases hb : b = 0
  · rw [hb, List.count_eq_zero.2 h.trackedNotNull, List.count_eq_zero.2 h.looseNotNull]
    exact List.count_eq_zero.2 fun hmem => h.apart.notNull (List.mem_of_mem_filter hmem)
  have hblocks := h.blocks b hb
  by_cases harray : b ∈ m.arrays
  · have honce := h.once hb
    have hpos := List.count_pos_iff.2 harray
    have hnone : b ∉ m.blocks := fun hmem => by simpa [harray] using List.of_mem_filter hmem
    rw [List.count_eq_zero.2 hnone]
    omega
  · rw [Memory.blocks, List.count_filter (by simpa using harray), hblocks, List.count_eq_zero.2 harray]
    omega

variable {current : List Nat} {scopes outer : List (List Nat)}

theorem Own.tracked (hown : Own m bytes) : ∃ datas levels, m.levels = datas :: levels ∧ bytes ∈ datas.datas := by
  obtain ⟨current, hhead, hmem⟩ := hown
  obtain ⟨scopes, hscopes⟩ := List.head?_eq_some_iff.1 hhead
  obtain ⟨datas, levels, hlevels, rfl, -⟩ := List.map_eq_cons_iff.1 hscopes
  exact ⟨datas, levels, hlevels, hmem⟩

theorem Ledger.untrack_own (hscopes : l.scopes = current :: scopes) (hmem : bytes ∈ current) :
    l.untrack bytes = ⟨current.erase bytes :: scopes, bytes :: l.loose⟩ := by
  rw [Ledger.untrack, hscopes]
  exact if_pos hmem

/-- The ledger of a call: the scopes around it and what is loose are as they were. -/
structure Around (l : Ledger) (outer : List (List Nat)) (loose : List Nat) : Prop where
  loose : l.loose = loose
  scopes : ∃ current inner, l.scopes = current :: (inner ++ outer)

theorem Own.mem (hown : Own m bytes) (h : Owned m l) (hscopes : l.scopes = current :: scopes) : bytes ∈ current := by
  obtain ⟨head, hhead, hmem⟩ := hown
  rw [h.scopes, hscopes] at hhead
  cases hhead
  exact hmem

theorem Around.push {loose : List Nat} (h : Around l outer loose) : Around l.push outer loose := by
  obtain ⟨current, inner, hscopes⟩ := h.scopes
  exact ⟨h.loose, [], current :: inner, congrArg _ hscopes⟩

theorem Around.create {loose : List Nat} (h : Around l outer loose) : Around (l.create bytes) outer loose := by
  obtain ⟨current, inner, hscopes⟩ := h.scopes
  rw [Ledger.create, hscopes]
  exact ⟨h.loose, _, inner, rfl⟩

theorem Around.resize {loose : List Nat} (h : Around l outer loose) (hl : Owned m l) (hown : data.bytes ≠ 0 → Own m data.bytes) :
    Around (l.resize data length bytes) outer loose := by
  unfold Ledger.resize
  split
  · exact h
  split
  · exact h.create
  rename_i hb
  obtain ⟨current, inner, hscopes⟩ := h.scopes
  have hmem := (hown hb).mem hl hscopes
  have hloose : data.bytes ∉ l.loose := by
    have honce := hl.once hb
    have hpos := List.count_pos_iff.2 hmem
    rw [hscopes, List.flatten_cons, List.count_append] at honce
    exact List.count_eq_zero.1 (by omega)
  rw [Ledger.move, hscopes, replaceData_none hloose]
  exact ⟨h.loose, _, inner, rfl⟩

theorem Around.free {loose : List Nat} (h : Around l outer loose) (hl : Owned m l) (hown : bytes ≠ 0 → Own m bytes) :
    Around (l.free bytes) outer loose := by
  obtain ⟨current, inner, hscopes⟩ := h.scopes
  by_cases hb : bytes = 0
  · rw [hb, Ledger.free, hl.untrack_null, List.erase_of_not_mem hl.looseNotNull]
    exact h
  · rw [Ledger.free, Ledger.untrack_own hscopes ((hown hb).mem hl hscopes), List.erase_cons_head]
    exact ⟨h.loose, _, inner, rfl⟩

/-- Where there is a scope of the call below the current one. -/
theorem Around.below {loose : List Nat} (h : Around l outer loose) (hl : Owned m l) (hdepth : outer.length + 1 < m.levels.length) :
    ∃ current next inner, l.scopes = current :: next :: (inner ++ outer) := by
  obtain ⟨current, inner, hscopes⟩ := h.scopes
  have hlength : m.levels.length = l.scopes.length := by rw [← hl.scopes, Memory.scopes, List.length_map]
  rw [hlength, hscopes, List.length_cons, List.length_append] at hdepth
  cases inner with
  | nil =>
    rw [List.length_nil] at hdepth
    omega
  | cons next inner => exact ⟨current, next, inner, hscopes⟩

theorem Around.transcend {loose : List Nat} (h : Around l outer loose) (hl : Owned m l)
    (hdepth : outer.length + 1 < m.levels.length) (hown : bytes ≠ 0 → Own m bytes) : Around (l.transcend bytes) outer loose := by
  obtain ⟨current, next, inner, hscopes⟩ := h.below hl hdepth
  unfold Ledger.transcend
  by_cases hb : bytes = 0
  · rw [hb, hl.untrack_null, hscopes]
    exact h
  · rw [Ledger.untrack_own hscopes ((hown hb).mem hl hscopes)]
    dsimp only
    rw [if_neg hb, List.erase_cons_head]
    exact ⟨h.loose, _, (next ++ [bytes]) :: inner, rfl⟩

theorem Around.dtPop {loose : List Nat} (h : Around l outer loose) (hl : Owned m l)
    (hdepth : outer.length + 1 < m.levels.length) (hown : bytes ≠ 0 → Own m bytes) : Around (l.dtPop bytes) outer loose := by
  obtain ⟨current, next, inner, hscopes⟩ := h.below hl hdepth
  rw [Ledger.dtPop]
  by_cases hb : bytes = 0
  · rw [hb, hl.untrack_null, Ledger.track, Ledger.pop, hscopes]
    exact ⟨h.loose, next, inner, rfl⟩
  · rw [Ledger.untrack_own hscopes ((hown hb).mem hl hscopes), Ledger.track, Ledger.pop]
    dsimp only [List.tail_cons]
    rw [if_neg hb, List.erase_cons_head]
    exact ⟨h.loose, _, inner, rfl⟩

/-- What a call does inside does not reach what is around it. -/
theorem Around.step {loose : List Nat} {request : Request} (h : Around l outer loose) (hl : Owned m l)
    (hinside : Inside outer.length m request) : Around (l.step bytes request) outer loose := by
  cases request with
  | basic operation =>
    cases operation with
    | dataNew length => exact h.create
    | dataResize data length => exact h.resize hl hinside
    | dataAppend first second => exact h.resize hl hinside
    | dataDelete data start length =>
      rw [Ledger.step]
      split
      · exact h
      · exact h.resize hl hinside
    | dataTrackPush => exact h.push
    | dataTrackPop =>
      obtain ⟨current, next, inner, hscopes⟩ := h.below hl hinside
      exact ⟨h.loose, next, inner, congrArg List.tail hscopes⟩
    | dataFree data => exact h.free hl hinside
  | dataNewUntracked length => exact hinside.elim
  | dataTrack bytes =>
    obtain rfl : bytes = 0 := hinside
    obtain ⟨current, inner, hscopes⟩ := h.scopes
    rw [Ledger.step, Ledger.track, hscopes]
    exact h
  | dataUntrack bytes => exact hinside.elim
  | dataTranscend bytes => exact h.transcend hl hinside.1 hinside.2
  | dtPop bytes => exact h.dtPop hl hinside.1 hinside.2

theorem Around.run {loose : List Nat} {body : List Request} (h : Around l outer loose) (hl : Owned m l)
    (hbody : Along (Memory.request alloc) (Keeps outer.length) m body) :
    ∃ last ledger, after (Memory.request alloc) m body = some last ∧ Owned last ledger ∧ Around ledger outer loose := by
  induction body generalizing m l with
  | nil => exact ⟨m, l, rfl, hl, h⟩
  | cons request body ih =>
    obtain ⟨⟨hrespects, hinside⟩, hrest⟩ := hbody
    obtain ⟨bytes, next, hrun, hnext⟩ := hl.request alloc hrespects
    rw [after_cons hrun]
    exact ih (h.step hl hinside) hnext (hrest next hrun)

theorem Own.mine (hown : Own m bytes) (h : Owned m l) : Mine m bytes := by
  obtain ⟨current, hhead, hmem⟩ := hown
  obtain ⟨scopes, hscopes⟩ := List.head?_eq_some_iff.1 hhead
  have htracked : bytes ∈ l.scopes.flatten := by
    rw [← h.scopes, hscopes]
    exact List.mem_append_left _ hmem
  have hb : bytes ≠ 0 := fun hzero => h.trackedNotNull (hzero ▸ htracked)
  have honce := h.once hb
  have hpos := List.count_pos_iff.2 hmem
  rw [← h.scopes, hscopes, List.flatten_cons, List.count_append] at honce
  refine ⟨h.tracked_allocated htracked, List.count_eq_zero.1 (by omega), ?_⟩
  rw [hscopes, List.tail_cons]
  exact List.count_eq_zero.1 (by omega)

/-- `DTPush`, the body, `DTPop` of the result. -/
def call (body : List Request) (result : Nat) : List Request := .basic .dataTrackPush :: body ++ [.dtPop result]

/-- The scope of a call is all that it ends. -/
theorem Ledger.dtPop_last {outer : List (List Nat)} (hscopes : l.scopes = current :: outer)
    (hmem : bytes ≠ 0 → bytes ∈ current) (hnull : l.untrack 0 = l) :
    (l.dtPop bytes).scopes = outer.modifyHead (fun current => if bytes = 0 then current else current ++ [bytes]) ∧
      ∀ b, (l.dtPop bytes).scopes.flatten.count b + (l.dtPop bytes).loose.count b =
        outer.flatten.count b + l.loose.count b + (if bytes = 0 then [] else [bytes]).count b := by
  by_cases hb : bytes = 0
  · have hpop : l.dtPop bytes = ⟨outer, l.loose⟩ := by
      rw [hb, Ledger.dtPop, hnull, Ledger.pop, hscopes, List.tail_cons, Ledger.track]
      cases outer <;> rfl
    rw [hpop]
    constructor
    · cases outer <;> simp [hb]
    · simp [hb]
  · have hpop : l.dtPop bytes = (⟨outer, bytes :: l.loose⟩ : Ledger).track bytes := by
      rw [Ledger.dtPop, Ledger.untrack_own hscopes (hmem hb)]
      rfl
    rw [hpop, Ledger.track]
    cases outer with
    | nil =>
      refine ⟨rfl, fun b => ?_⟩
      simp [hb, List.count_cons]
    | cons next outer =>
      dsimp only
      rw [if_neg hb, List.erase_cons_head]
      refine ⟨by simp [hb], fun b => ?_⟩
      simp only [hb, if_false, List.flatten_cons, List.count_append]
      omega

/-- A call leaves the blocks of all others as they were, and of its own only the result,
    which the scope it was made in tracks. -/
theorem tracked_call (alloc : Allocator) {requests body : List Request} {m : Memory} {result : Nat}
    (hrespects : Along (Memory.request alloc) Respects Memory.start requests)
    (hrun : after (Memory.request alloc) Memory.start requests = some m)
    (hbody : ∀ pushed, m.request alloc (.basic .dataTrackPush) = some pushed →
      Along (Memory.request alloc) (Keeps m.levels.length) pushed body)
    (hresult : ∀ inner, after (Memory.request alloc) m (.basic .dataTrackPush :: body) = some inner →
      inner.levels.length = m.levels.length + 1 ∧ (result ≠ 0 → Own inner result)) :
    ∃ last, after (Memory.request alloc) m (call body result) = some last ∧
      last.scopes = m.scopes.modifyHead (fun current => if result = 0 then current else current ++ [result]) ∧
      last.blocks.Perm (m.blocks ++ if result = 0 then [] else [result]) := by
  obtain ⟨reached, l, hreached, hm⟩ := Owned.start.run alloc hrespects requests List.prefix_rfl
  obtain rfl : reached = m := Option.some.inj (hreached.symm.trans hrun)
  obtain ⟨pushed, hpush, hpushed⟩ := hm.dataTrackPush alloc
  have hlength : reached.levels.length = l.scopes.length := by rw [← hm.scopes, Memory.scopes, List.length_map]
  have haround : Around l.push l.scopes l.loose := ⟨rfl, [], [], rfl⟩
  have hinside := hbody pushed hpush
  rw [hlength] at hinside
  obtain ⟨inner, ledger, hinner, howned, hledger⟩ := haround.run alloc hpushed hinside
  have hwhole : after (Memory.request alloc) reached (.basic .dataTrackPush :: body) = some inner := by
    rw [after_cons hpush, hinner]
  obtain ⟨hdepth, hown⟩ := hresult inner hwhole
  obtain ⟨current, middle, hscopes⟩ := hledger.scopes
  obtain rfl : middle = [] := by
    have hcount : inner.levels.length = ledger.scopes.length := by rw [← howned.scopes, Memory.scopes, List.length_map]
    rw [hscopes, List.length_cons, List.length_append] at hcount
    exact List.eq_nil_of_length_eq_zero (by omega)
  rw [List.nil_append] at hscopes
  obtain ⟨last, hlast, hend⟩ := howned.dtPop alloc (hscopes ▸ List.cons_ne_nil _ _) fun hb => (hown hb).mine howned
  obtain ⟨hends, hcounts⟩ := Ledger.dtPop_last hscopes (fun hb => (hown hb).mem howned hscopes) howned.untrack_null
  refine ⟨last, ?_, ?_, List.perm_iff_count.2 fun b => ?_⟩
  · rw [call, after, List.foldlM_append]
    refine Option.bind_eq_some_iff.2 ⟨inner, hwhole, ?_⟩
    exact Option.bind_eq_some_iff.2 ⟨last, hlast, rfl⟩
  · rw [hend.scopes, hends, hm.scopes]
  · rw [List.count_append, hend.blocks_count, hcounts, hm.blocks_count, hledger.loose]

/-- A call that makes two blocks, frees one and gives back the other. -/
theorem tracked_call_two :
    ∃ last, after (Memory.request bump) ⟨[4, 2, 1], 3, 1, [⟨4, [2]⟩], 3⟩
        (call [.basic (.dataNew 2), .basic (.dataNew 3), .basic (.dataFree ⟨14, 2⟩)] 56) = some last ∧
      last.scopes = [[2, 56]] ∧ last.blocks.Perm [2, 56] := by
  have hlast := @tracked_call bump [.basic .dataTrackPush, .basic (.dataNew 1)]
    [.basic (.dataNew 2), .basic (.dataNew 3), .basic (.dataFree ⟨14, 2⟩)] ⟨[4, 2, 1], 3, 1, [⟨4, [2]⟩], 3⟩ 56 (along_cons trivial rfl (along_cons trivial rfl trivial)) rfl ?_ ?_
  · exact hlast
  · intro pushed hpush
    cases hpush
    refine along_cons ⟨trivial, trivial⟩ rfl (along_cons ⟨trivial, trivial⟩ rfl (along_cons ⟨fun _ => ?_, fun _ => ?_⟩ rfl trivial))
    · exact ⟨by decide, by decide, by decide⟩
    · exact ⟨_, rfl, by decide⟩
  · intro inner hinner
    cases hinner
    exact ⟨rfl, fun _ => ⟨_, rfl, by decide⟩⟩

/-! ## Blocks that are resized to nothing -/

theorem dataFreeFlexible_levels (h : dataFreeFlexible bytes false m = some next) : next.levels = m.levels := by
  have hfree : ∀ {m next : Memory}, m.free bytes = some next → next.levels = m.levels := by
    intro m next h
    unfold Memory.free at h
    split at h
    · cases h
      rfl
    split at h
    · cases h
      rfl
    · cases h
  unfold dataFreeFlexible at h
  split at h
  · cases h
  · rw [hfree h]
    split <;> rfl

/-- NULL that is tracked twice is not freed. -/
theorem free_null_twice {tracked : List Nat} (hmem : 0 ∈ tracked) (htwice : 1 < trackedCount 0 m) :
    tracked.foldlM (fun m bytes => dataFreeFlexible bytes false m) m = none := by
  induction tracked generalizing m with
  | nil => exact absurd hmem List.not_mem_nil
  | cons bytes tracked ih =>
    rw [List.foldlM_cons]
    cases hfree : dataFreeFlexible bytes false m with
    | none => rfl
    | some next =>
      have hne : 0 ≠ bytes := by
        intro hzero
        rw [← hzero, dataFreeFlexible, if_pos htwice] at hfree
        cases hfree
      refine ih ((List.mem_cons.1 hmem).resolve_left hne) ?_
      rwa [trackedCount, dataFreeFlexible_levels hfree]

theorem dataTrackPop_null_twice (hlevels : m.levels = datas :: levels) (hptr : datas.ptr ≠ 0) (htwice : 1 < datas.datas.count 0) :
    dataTrackPop alloc m = none := by
  have hcount : 1 < trackedCount 0 m := by rwa [trackedCount, hlevels]
  have hstuck := free_null_twice (List.count_pos_iff.1 (Nat.lt_of_succ_lt htwice)) hcount
  rw [dataTrackPop, hlevels]
  dsimp only
  rw [datasFreeFlexible, if_neg hptr, Option.bind_eq_bind, hstuck]
  rfl

/-- What is resized to nothing is tracked as NULL. -/
theorem dataResize_tracked (hlevels : m.levels = datas :: levels) (hnull : 0 ∉ m.allocated) (hmem : data.bytes ∈ m.allocated)
    (htracked : data.bytes ∈ datas.datas) (hlength : data.length ≠ 0) :
    ∃ next, m.request alloc (.basic (.dataResize data 0)) = some next ∧
      next.allocated = m.allocated.erase data.bytes ∧
      next.levels = ⟨datas.ptr, replaceData data.bytes 0 datas.datas⟩ :: levels := by
  have hb : data.bytes ≠ 0 := fun hzero => hnull (hzero ▸ hmem)
  refine ⟨dataReplaceTrack data.bytes 0 { m with allocated := m.allocated.erase data.bytes }, ?_, ?_⟩
  · rw [Memory.request, Memory.step, dataResize_empties hb hmem hlength]
    rfl
  · rw [dataReplaceTrack, hlevels]
    dsimp only
    rw [if_pos htracked]
    exact ⟨rfl, rfl⟩

/-- Two blocks that one scope tracks are resized to nothing: it tracks NULL twice and cannot be
    ended. -/
theorem emptied_twice (alloc : Allocator) {requests : List Request} {m : Memory} {first second : Block}
    (hrespects : Along (Memory.request alloc) Respects Memory.start requests)
    (hrun : after (Memory.request alloc) Memory.start requests = some m) (hfirst : Own m first.bytes)
    (hsecond : Own m second.bytes) (hne : first.bytes ≠ second.bytes) (hfirstLength : first.length ≠ 0)
    (hsecondLength : second.length ≠ 0) :
    ∃ next, after (Memory.request alloc) m [.basic (.dataResize first 0), .basic (.dataResize second 0)] = some next ∧
      trackedCount 0 next = 2 ∧ next.request alloc (.basic .dataTrackPop) = none := by
  obtain ⟨reached, l, hreached, hm⟩ := Owned.start.run alloc hrespects requests List.prefix_rfl
  obtain rfl : reached = m := Option.some.inj (hreached.symm.trans hrun)
  obtain ⟨datas, levels, hlevels, hmemFirst⟩ := hfirst.tracked
  have hledger : l.scopes = datas.datas :: levels.map TrackStack.datas := by
    rw [← hm.scopes, Memory.scopes, hlevels, List.map_cons]
  have hmemSecond := hsecond.mem hm hledger
  have hnull : 0 ∉ datas.datas := by
    have hall := hm.trackedNotNull
    rw [hledger, List.flatten_cons, List.mem_append, not_or] at hall
    exact hall.1
  have honce : ∀ b, datas.datas.count b ≤ 1 := by
    intro b
    have hall := hm.tracked_once b
    rw [hledger, List.flatten_cons, List.count_append] at hall
    omega
  have hptr : datas.ptr ≠ 0 := by
    intro hzero
    rw [hm.bare datas (hlevels ▸ List.mem_cons_self) hzero] at hmemFirst
    exact List.not_mem_nil hmemFirst
  obtain ⟨middle, hmiddle, hallocated, hmoved⟩ := dataResize_tracked alloc hlevels hm.apart.notNull (hfirst.mine hm).allocated
    hmemFirst hfirstLength
  have hreplaced := @count_replaceData 0 first.bytes datas.datas hmemFirst (honce _)
  have hsecondLeft : second.bytes ∈ replaceData first.bytes 0 datas.datas := List.mem_map.2 ⟨second.bytes, hmemSecond, if_neg hne.symm⟩
  have hnotNull : 0 ∉ middle.allocated := by
    rw [hallocated]
    exact fun hzero => hm.apart.notNull (List.mem_of_mem_erase hzero)
  have hsecondAllocated : second.bytes ∈ middle.allocated := by
    rw [hallocated]
    exact (List.mem_erase_of_ne hne.symm).2 (hsecond.mine hm).allocated
  obtain ⟨next, hnext, -, hlast⟩ := dataResize_tracked alloc hmoved hnotNull hsecondAllocated hsecondLeft hsecondLength
  suffices htwice : (replaceData second.bytes 0 (replaceData first.bytes 0 datas.datas)).count 0 = 2 by
    refine ⟨next, by rw [after_cons hmiddle, after_cons hnext]; rfl, ?_, dataTrackPop_null_twice alloc hlast hptr ?_⟩
    · rw [trackedCount, hlast]
      exact htwice
    · dsimp only
      omega
  -- each of the two has left a NULL
  have hsecondOnce : (replaceData first.bytes 0 datas.datas).count second.bytes ≤ 1 := by
    have hcount := hreplaced second.bytes
    have hzero : second.bytes ≠ 0 := fun hzero => hnull (hzero ▸ hmemSecond)
    rw [List.count_cons_of_ne hne, List.count_cons_of_ne (Ne.symm hzero), List.count_nil] at hcount
    have hbefore := honce second.bytes
    omega
  have hone := hreplaced 0
  have htwo := @count_replaceData 0 second.bytes _ hsecondLeft hsecondOnce 0
  have hfirstZero : first.bytes ≠ 0 := fun hzero => hnull (hzero ▸ hmemFirst)
  have hsecondZero : second.bytes ≠ 0 := fun hzero => hnull (hzero ▸ hmemSecond)
  have hzero : datas.datas.count 0 = 0 := List.count_eq_zero.2 hnull
  rw [List.count_cons_of_ne hfirstZero, List.count_nil, List.count_singleton_self] at hone
  rw [List.count_cons_of_ne hsecondZero, List.count_nil, List.count_singleton_self] at htwo
  omega

/-- A scope with two blocks of one byte. -/
theorem emptied_twice_bytes :
    ∃ next, after (Memory.request bump) ⟨[12, 8, 2, 1], 4, 1, [⟨12, [2, 8]⟩], 5⟩
        [.basic (.dataResize ⟨2, 1⟩ 0), .basic (.dataResize ⟨8, 1⟩ 0)] = some next ∧
      trackedCount 0 next = 2 ∧ next.request bump (.basic .dataTrackPop) = none := by
  have hstart : Along (Memory.request bump) Respects Memory.start [.basic .dataTrackPush, .basic (.dataNew 1), .basic (.dataNew 1)] :=
    along_cons trivial rfl (along_cons trivial rfl (along_cons trivial rfl trivial))
  exact @emptied_twice bump _ _ ⟨2, 1⟩ ⟨8, 1⟩ hstart rfl ⟨_, rfl, by decide⟩ ⟨_, rfl, by decide⟩ (by decide) (by decide) (by decide)

end BitcoinSpoon.Allocations
